import FirefighterRover.JsmnDocuments
import FirefighterRover.Lib.ParentLinks

/-!
jsmn.h built with JSMN_PARENT_LINKS: every token has a link to its super token, and the two
searches through the token array become walks along these links.
-/
namespace RoverLinks
open CMemory RoverJsmn RoverOutline RoverMachine ParentLinks

structure LinkTok extends JsmnTok where
  parent : Int
  deriving DecidableEq, Repr

structure LinkParser where
  pos : Nat
  toksuper : Int
  tokens : List LinkTok
  deriving DecidableEq, Repr

def LinkParser.toknext (parser : LinkParser) : Nat := parser.tokens.length

def jsmnInitLinked : LinkParser := ⟨0, -1, []⟩

def LinkParser.tok (parser : LinkParser) (i : Int) : LinkTok :=
  parser.tokens.getD i.toNat ⟨⟨.undefined, -1, -1, 0⟩, -1⟩

def jsmnAllocTokenLinked (parser : LinkParser) (numTokens : Nat) (token : LinkTok) :
    Except JsmnErr LinkParser :=
  if parser.toknext ≥ numTokens then .error .nomem
  else .ok { parser with tokens := parser.tokens ++ [token] }

def jsmnParsePrimitiveLinked (parser : LinkParser) (js : Ptr) (len numTokens : Nat) :
    Except JsmnErr LinkParser := do
  let start := parser.pos
  let pos ← primitiveEnd js len (len - start) start
  let parser ← jsmnAllocTokenLinked parser numTokens
    ⟨jsmnFillToken .primitive start pos, parser.toksuper⟩
  .ok { parser with pos := pos - 1 }

def jsmnParseStringLinked (parser : LinkParser) (js : Ptr) (len numTokens : Nat) :
    Except JsmnErr LinkParser := do
  let start := parser.pos
  let pos ← stringEnd js len (len - start) (start + 1)
  let parser ← jsmnAllocTokenLinked parser numTokens
    ⟨jsmnFillToken .string (start + 1) pos, parser.toksuper⟩
  .ok { parser with pos := pos }

/-- `tokens[parser->toksuper].size++` -/
def grow (super : Int) (tokens : List LinkTok) : List LinkTok :=
  if super ≠ -1 then tokens.modify super.toNat fun t => { t with size := t.size + 1 } else tokens

def countMemberLinked (parser : LinkParser) : LinkParser :=
  { parser with tokens := grow parser.toksuper parser.tokens }

def openContainerLinked (parser : LinkParser) (numTokens : Nat) (type : JsmnType) :
    Except JsmnErr LinkParser := do
  let parser ← jsmnAllocTokenLinked (countMemberLinked parser) numTokens
    ⟨⟨type, parser.pos, -1, 0⟩, parser.toksuper⟩
  .ok { parser with toksuper := (parser.toknext : Int) - 1 }

/-- The walk of a closing bracket: to the first open token from `i` upwards, or to the last token
    that has a link to none. A link leads to a lower token, so `fuel = toknext` outlasts it. -/
def closeSearch (tokens : List LinkTok) : Nat → Nat → Nat
  | 0, i => i
  | fuel + 1, i =>
    let token := tokens.getD i ⟨⟨.undefined, -1, -1, 0⟩, -1⟩
    if token.isOpen then i
    else if token.parent = -1 then i
    else closeSearch tokens fuel token.parent.toNat

def closeContainerLinked (parser : LinkParser) (type : JsmnType) : Except JsmnErr LinkParser :=
  if parser.toknext < 1 then .error .inval
  else
    let i := closeSearch parser.tokens parser.toknext (parser.toknext - 1)
    let token := parser.tok i
    if token.isOpen then
      if token.type ≠ type then .error .inval
      else .ok { parser with
        toksuper := token.parent
        tokens := parser.tokens.modify i fun t => { t with end_ := parser.pos + 1 } }
    else if token.type ≠ type ∨ parser.toksuper = -1 then .error .inval
    else .ok parser

def endMemberLinked (parser : LinkParser) : LinkParser :=
  if parser.toksuper ≠ -1 ∧ (parser.tok parser.toksuper).isContainer = false then
    { parser with toksuper := (parser.tok parser.toksuper).parent }
  else parser

def jsmnParseCharLinked (parser : LinkParser) (js : Ptr) (len numTokens : Nat) :
    Except JsmnErr (LinkParser × Nat) :=
  let c := js parser.pos
  if c = chr '{' ∨ c = chr '[' then do
    let parser ← openContainerLinked parser numTokens (if c = chr '{' then .object else .array)
    .ok (parser, 1)
  else if c = chr '}' ∨ c = chr ']' then do
    let parser ← closeContainerLinked parser (if c = chr '}' then .object else .array)
    .ok (parser, 0)
  else if c = chr '\"' then do
    let parser ← jsmnParseStringLinked parser js len numTokens
    .ok (countMemberLinked parser, 1)
  else if c = chr '\t' ∨ c = chr '\r' ∨ c = chr '\n' ∨ c = chr ' ' then .ok (parser, 0)
  else if c = chr ':' then .ok ({ parser with toksuper := (parser.toknext : Int) - 1 }, 0)
  else if c = chr ',' then .ok (endMemberLinked parser, 0)
  else do
    let parser ← jsmnParsePrimitiveLinked parser js len numTokens
    .ok (countMemberLinked parser, 1)

def jsmnParseLoopLinked (js : Ptr) (len numTokens : Nat) :
    Nat → LinkParser → Nat → Except JsmnErr (LinkParser × Nat)
  | 0, parser, count => .ok (parser, count)
  | fuel + 1, parser, count =>
    if parser.pos < len ∧ js parser.pos ≠ 0 then do
      let (parser, added) ← jsmnParseCharLinked parser js len numTokens
      jsmnParseLoopLinked js len numTokens fuel { parser with pos := parser.pos + 1 } (count + added)
    else .ok (parser, count)

def jsmnParseLinked (js : Ptr) (len numTokens : Nat) : Except JsmnErr (Nat × List LinkTok) := do
  let (parser, count) ← jsmnParseLoopLinked js len numTokens len jsmnInitLinked 0
  if (lastBelow JsmnTok.isOpen (parser.tokens.map LinkTok.toJsmnTok) parser.toknext).isSome then
    .error .part
  else .ok (count, parser.tokens)

/-- A closing bracket that closes nothing, which only the walk along the links lets pass. -/
example : jsmnParse (cstr (lit "\x7b\x7d:\x7d")) 4 4 = .error .inval ∧
    jsmnParseLinked (cstr (lit "\x7b\x7d:\x7d")) 4 4 = .ok (1, [⟨⟨.object, 0, 2, 0⟩, -1⟩]) := by
  decide

def parentOf (tokens : List LinkTok) (i : Nat) : Option Nat :=
  match tokens[i]? with
  | some t => if t.parent = -1 then none else some t.parent.toNat
  | none => none

def openAt (tokens : List LinkTok) (i : Nat) : Bool := (tokens[i]?).any fun t => t.isOpen

def Holds (super : Int) (tokens : List LinkTok) : Prop :=
  super = -1 ∨ ∃ p : Nat, super = p ∧ p < tokens.length

/-- What the parser keeps of its tokens: each has a link to an earlier one or to none, every open
    container is above the last token and above the super token, and a token's size is the number
    of links to it. -/
structure Linked (super : Int) (tokens : List LinkTok) : Prop where
  lower : ∀ (i : Nat) t, tokens[i]? = some t → t.parent = -1 ∨ ∃ p : Nat, t.parent = p ∧ p < i
  boxes : ∀ t ∈ tokens, t.isOpen = true → t.isContainer = true
  holder : Holds super tokens
  last : ∀ j, openAt tokens j = true → Above (parentOf tokens) (tokens.length - 1) j
  held : ∀ j, openAt tokens j = true → ∃ k : Nat, super = k ∧ Above (parentOf tokens) k j
  sizes : ∀ (i : Nat) t, tokens[i]? = some t →
    t.size = (tokens.countP fun u => u.parent = (i : Int) : Nat)

theorem init_linked : Linked (-1) [] :=
  ⟨by simp, by simp, Or.inl rfl, by simp [openAt], by simp [openAt], by simp⟩

theorem parentOf_some {tokens : List LinkTok} {i : Nat} {t : LinkTok} (entry : tokens[i]? = some t)
    {p : Nat} (link : t.parent = p) : parentOf tokens i = some p := by
  have present : t.parent ≠ -1 := by omega
  rw [parentOf, entry]
  dsimp only
  rw [if_neg present, link, Int.toNat_natCast]

theorem linked_ordered {super : Int} {tokens : List LinkTok} (linked : Linked super tokens) :
    Ordered (parentOf tokens) := by
  intro i p link
  unfold parentOf at link
  split at link
  · rename_i t entry
    rcases linked.lower i t entry with none | ⟨q, same, lower⟩
    · rw [if_pos none] at link
      cases link
    · have present : t.parent ≠ -1 := by omega
      rw [if_neg present, same, Int.toNat_natCast] at link
      obtain rfl := Option.some.inj link
      exact lower
  · cases link

theorem openAt_iff {tokens : List LinkTok} {i : Nat} :
    openAt tokens i = true ↔ ∃ t, tokens[i]? = some t ∧ t.isOpen = true := by
  unfold openAt
  cases tokens[i]? <;> simp

theorem openAt_lt {tokens : List LinkTok} {i : Nat} (opened : openAt tokens i = true) :
    i < tokens.length := by
  obtain ⟨t, entry, _⟩ := openAt_iff.mp opened
  exact (List.getElem?_eq_some_iff.mp entry).1

theorem closeSearch_climb (tokens : List LinkTok) : ∀ fuel i : Nat,
    closeSearch tokens fuel i = climb (parentOf tokens) (openAt tokens) fuel i := by
  intro fuel
  induction fuel with
  | zero => intro i; rfl
  | succ fuel ih =>
    intro i
    rw [closeSearch, climb, openAt, parentOf, List.getD_eq_getElem?_getD]
    cases tokens[i]? with
    | none => rfl
    | some t =>
      dsimp only [Option.getD_some, Option.any_some]
      by_cases opened : t.isOpen = true
      · rw [if_pos opened, if_pos opened]
      · rw [if_neg opened, if_neg opened]
        by_cases root : t.parent = -1
        · rw [if_pos root, if_pos root]
        · rw [if_neg root, if_neg root]
          exact ih _

theorem closeSearch_finds {super : Int} {tokens : List LinkTok} (linked : Linked super tokens)
    {j : Nat} (opened : openAt tokens j = true)
    (highest : ∀ k, openAt tokens k = true → k ≤ j) :
    closeSearch tokens tokens.length (tokens.length - 1) = j := by
  have inside := openAt_lt opened
  rw [closeSearch_climb]
  exact climb_finds (linked_ordered linked) opened highest (linked.last j opened) (by omega)

theorem grow_length (super : Int) (tokens : List LinkTok) :
    (grow super tokens).length = tokens.length := by
  unfold grow
  split <;> simp

theorem grow_entry {super : Int} {tokens : List LinkTok} (holds : Holds super tokens) (i : Nat) :
    (grow super tokens)[i]? = (tokens[i]?).map fun u =>
      { u with size := u.size + if super = i then 1 else 0 } := by
  unfold grow
  rcases holds with none | ⟨p, here, inside⟩
  · have other : ¬ super = (i : Int) := by omega
    rw [if_neg (not_not.mpr none)]
    simp only [if_neg other, Int.add_zero]
    cases tokens[i]? <;> rfl
  · rw [if_pos (by omega), List.getElem?_modify, here, Int.toNat_natCast]
    by_cases same : p = i
    · cases tokens[i]? <;> simp [same]
    · have other : ¬ (p : Int) = i := by omega
      cases tokens[i]? <;> simp [same, other]

theorem grow_links (super : Int) (tokens : List LinkTok) :
    (grow super tokens).map LinkTok.parent = tokens.map LinkTok.parent := by
  unfold grow
  split
  · exact modify_map (f := fun t : LinkTok => { t with size := t.size + 1 }) (g := LinkTok.parent)
      (fun _ => rfl) tokens _
  · rfl

theorem countP_links {tokens others : List LinkTok}
    (same : tokens.map LinkTok.parent = others.map LinkTok.parent) (i : Int) :
    (tokens.countP fun u => u.parent = i) = others.countP fun u => u.parent = i := by
  have count := congrArg (List.countP fun link => decide (link = i)) same
  rwa [List.countP_map, List.countP_map] at count

theorem entry_same {tokens others : List LinkTok} {i : Nat} {t u : LinkTok}
    (entry : tokens[i]? = some t) (other : others[i]? = some u) (link : t.parent = u.parent)
    (opened : t.isOpen = u.isOpen) :
    parentOf tokens i = parentOf others i ∧ openAt tokens i = openAt others i := by
  constructor
  · simp only [parentOf, entry, other, link]
  · simp only [openAt, entry, other, Option.any_some, opened]

structure Stored (super : Int) (tokens : List LinkTok) (t : LinkTok) (after : List LinkTok) :
    Prop where
  size : after.length = tokens.length + 1
  old : ∀ i, i < tokens.length → after[i]? = (tokens[i]?).map fun u =>
    { u with size := u.size + if super = i then 1 else 0 }
  new : after[tokens.length]? = some t
  links : after.map LinkTok.parent = tokens.map LinkTok.parent ++ [t.parent]

theorem stored_grow {super : Int} {tokens : List LinkTok} (holds : Holds super tokens)
    (t : LinkTok) : Stored super tokens t (grow super tokens ++ [t]) := by
  have size := grow_length super tokens
  refine ⟨?_, ?_, ?_, ?_⟩
  · rw [List.length_append, size, List.length_singleton]
  · intro i inside
    rw [List.getElem?_append_left (by omega), grow_entry holds]
  · rw [List.getElem?_append_right (by omega), size, Nat.sub_self]
    rfl
  · rw [List.map_append, grow_links]
    rfl

theorem stored_grown {super : Int} {tokens : List LinkTok} (holds : Holds super tokens)
    (t : LinkTok) : Stored super tokens t (grow super (tokens ++ [t])) := by
  have size : (tokens ++ [t]).length = tokens.length + 1 := by simp
  have wider : Holds super (tokens ++ [t]) := by
    rcases holds with none | ⟨p, here, inside⟩
    · exact Or.inl none
    · exact Or.inr ⟨p, here, by omega⟩
  have other : ¬ super = (tokens.length : Int) := by
    rcases holds with none | ⟨p, here, inside⟩ <;> omega
  refine ⟨?_, ?_, ?_, ?_⟩
  · rw [grow_length, size]
  · intro i inside
    rw [grow_entry wider, List.getElem?_append_left inside]
  · rw [grow_entry wider, List.getElem?_concat_length]
    simp [other]
  · rw [grow_links, List.map_append]
    rfl

section
variable {super : Int} {tokens after : List LinkTok} {t : LinkTok}

theorem stored_same (stored : Stored super tokens t after) {i : Nat} (inside : i < tokens.length) :
    parentOf after i = parentOf tokens i ∧ openAt after i = openAt tokens i := by
  have entry : tokens[i]? = some tokens[i] := List.getElem?_eq_getElem inside
  have grown := stored.old i inside
  rw [entry] at grown
  exact entry_same grown entry rfl rfl

theorem stored_open (stored : Stored super tokens t after) {j : Nat}
    (opened : openAt after j = true) :
    (j < tokens.length ∧ openAt tokens j = true) ∨ (j = tokens.length ∧ t.isOpen = true) := by
  have inside := openAt_lt opened
  rw [stored.size] at inside
  rcases Nat.lt_or_ge j tokens.length with old | new
  · rw [(stored_same stored old).2] at opened
    exact Or.inl ⟨old, opened⟩
  · obtain rfl : j = tokens.length := by omega
    rw [openAt, stored.new] at opened
    exact Or.inr ⟨rfl, opened⟩

theorem linked_stored (linked : Linked super tokens) (stored : Stored super tokens t after)
    (link : t.parent = super) (empty : t.size = 0) (box : t.isOpen = true → t.isContainer = true)
    {next : Int} (holder : next = if t.isOpen then (tokens.length : Int) else super) :
    Linked next after := by
  have ordered := linked_ordered linked
  have above {k j : Nat} (below : k < tokens.length) (reached : Above (parentOf tokens) k j) :
      Above (parentOf after) k j :=
    above_congr ordered (fun i inside => (stored_same stored inside).1) reached below
  -- every container open before is above the new token, by its link
  have climbs : ∀ j, openAt tokens j = true → Above (parentOf after) tokens.length j := by
    intro j opened
    obtain ⟨k, here, reached⟩ := linked.held j opened
    have below : k < tokens.length := by
      rcases linked.holder with none | ⟨p, same, inside⟩ <;> omega
    exact .up (parentOf_some stored.new (link.trans here)) (above below reached)
  constructor
  case lower =>
    intro i u entry
    have inside := (List.getElem?_eq_some_iff.mp entry).1
    rw [stored.size] at inside
    rcases Nat.lt_or_ge i tokens.length with old | new
    · rw [stored.old i old, List.getElem?_eq_getElem old] at entry
      obtain rfl := Option.some.inj entry
      exact linked.lower i tokens[i] (List.getElem?_eq_getElem old)
    · obtain rfl : i = tokens.length := by omega
      rw [stored.new] at entry
      obtain rfl := Option.some.inj entry
      rw [link]
      exact linked.holder
  case boxes =>
    intro u member opened
    obtain ⟨i, inside, rfl⟩ := List.mem_iff_getElem.mp member
    have entry : after[i]? = some after[i] := List.getElem?_eq_getElem inside
    rcases Nat.lt_or_ge i tokens.length with old | new
    · rw [stored.old i old, List.getElem?_eq_getElem old] at entry
      have same := Option.some.inj entry
      rw [← same] at opened ⊢
      exact linked.boxes tokens[i] (List.getElem_mem old) opened
    · obtain rfl : i = tokens.length := by
        have size := stored.size
        omega
      rw [stored.new] at entry
      have same := Option.some.inj entry
      rw [← same] at opened ⊢
      exact box opened
  case holder =>
    unfold Holds
    rw [holder, stored.size]
    split
    · exact Or.inr ⟨tokens.length, rfl, Nat.lt_succ_self _⟩
    · rcases linked.holder with none | ⟨p, same, inside⟩
      · exact Or.inl none
      · exact Or.inr ⟨p, same, by omega⟩
  case last =>
    intro j opened
    rw [stored.size, Nat.add_sub_cancel]
    rcases stored_open stored opened with ⟨_, before⟩ | ⟨rfl, _⟩
    · exact climbs j before
    · exact .self _
  case held =>
    intro j opened
    rw [holder]
    by_cases container : t.isOpen = true
    · rw [if_pos container]
      refine ⟨tokens.length, rfl, ?_⟩
      rcases stored_open stored opened with ⟨_, before⟩ | ⟨rfl, _⟩
      · exact climbs j before
      · exact .self _
    · rw [if_neg container]
      rcases stored_open stored opened with ⟨_, before⟩ | ⟨_, isNew⟩
      · obtain ⟨k, here, reached⟩ := linked.held j before
        have below : k < tokens.length := by
          rcases linked.holder with none | ⟨p, same, inside⟩ <;> omega
        exact ⟨k, here, above below reached⟩
      · exact absurd isNew container
  case sizes =>
    intro i u entry
    have count := countP_links (stored.links.trans (List.map_append.symm : _ = (tokens ++ [t]).map _)) i
    rw [List.countP_append, List.countP_singleton, link] at count
    have inside := (List.getElem?_eq_some_iff.mp entry).1
    rcases Nat.lt_or_ge i tokens.length with old | new
    · rw [stored.old i old, List.getElem?_eq_getElem old] at entry
      obtain rfl := Option.some.inj entry
      have before := linked.sizes i tokens[i] (List.getElem?_eq_getElem old)
      dsimp only
      rw [count, before]
      by_cases held : super = (i : Int)
      · simp [held]
      · simp [held]
    · obtain rfl : i = tokens.length := by
        have size := stored.size
        omega
      rw [stored.new] at entry
      obtain rfl := Option.some.inj entry
      have none : (tokens.countP fun u => u.parent = (tokens.length : Int)) = 0 := by
        apply List.countP_eq_zero.mpr
        intro u member
        obtain ⟨k, below, rfl⟩ := List.mem_iff_getElem.mp member
        have lower := linked.lower k tokens[k] (List.getElem?_eq_getElem below)
        rw [decide_eq_true_iff]
        omega
      have other : ¬ super = (tokens.length : Int) := by
        rcases linked.holder with none | ⟨p, here, below⟩ <;> omega
      rw [count, none, empty]
      simp [other]

def closeAt (i : Nat) (stop : Int) (tokens : List LinkTok) : List LinkTok :=
  tokens.modify i fun t => { t with end_ := stop }

theorem closeAt_entry (i : Nat) (stop : Int) (tokens : List LinkTok) (k : Nat) :
    (closeAt i stop tokens)[k]? = (tokens[k]?).map fun u =>
      if i = k then { u with end_ := stop } else u := by
  rw [closeAt, List.getElem?_modify]
  cases tokens[k]? <;> simp

theorem closeAt_length (i : Nat) (stop : Int) (tokens : List LinkTok) :
    (closeAt i stop tokens).length = tokens.length := by simp [closeAt]

theorem closeAt_links (i : Nat) (stop : Int) (tokens : List LinkTok) :
    (closeAt i stop tokens).map LinkTok.parent = tokens.map LinkTok.parent :=
  modify_map (f := fun t : LinkTok => { t with end_ := stop }) (g := LinkTok.parent)
    (fun _ => rfl) tokens _

theorem closeAt_parentOf (i : Nat) (stop : Int) (tokens : List LinkTok) :
    parentOf (closeAt i stop tokens) = parentOf tokens := by
  funext k
  simp only [parentOf, closeAt_entry]
  cases tokens[k]? with
  | none => rfl
  | some u =>
    by_cases same : i = k
    · simp [same]
    · simp [same]

theorem closeAt_open {i : Nat} {stop : Int} (ended : 0 ≤ stop) {tokens : List LinkTok} {k : Nat} :
    openAt (closeAt i stop tokens) k = true ↔ k ≠ i ∧ openAt tokens k = true := by
  simp only [openAt, closeAt_entry]
  cases tokens[k]? with
  | none => simp
  | some u =>
    by_cases same : i = k
    · have shut : JsmnTok.isOpen { u.toJsmnTok with end_ := stop } = false :=
        ended_closed ended
      simp [same, shut]
    · simp [same, Ne.symm same]

theorem linked_close (linked : Linked super tokens) {i : Nat} (entry : tokens[i]? = some t)
    (opened : t.isOpen = true) (highest : ∀ k, openAt tokens k = true → k ≤ i) {stop : Int}
    (ended : 0 ≤ stop) : Linked t.parent (closeAt i stop tokens) := by
  have ordered := linked_ordered linked
  have here : openAt tokens i = true := openAt_iff.mpr ⟨t, entry, opened⟩
  constructor
  case lower =>
    intro k u at_k
    rw [closeAt_entry] at at_k
    obtain ⟨v, old, rfl⟩ := Option.map_eq_some_iff.mp at_k
    have lower := linked.lower k v old
    split <;> exact lower
  case boxes =>
    intro u member open_
    obtain ⟨k, at_k⟩ := List.mem_iff_getElem?.mp member
    obtain ⟨_, before⟩ := (closeAt_open ended).mp (openAt_iff.mpr ⟨u, at_k, open_⟩)
    obtain ⟨v, old, vOpen⟩ := openAt_iff.mp before
    rw [closeAt_entry, old] at at_k
    obtain rfl := Option.some.inj at_k
    have box := linked.boxes v (List.mem_of_getElem? old) vOpen
    split <;> exact box
  case holder =>
    have inside := (List.getElem?_eq_some_iff.mp entry).1
    unfold Holds
    rw [closeAt_length]
    rcases linked.lower i t entry with none | ⟨p, same, lower⟩
    · exact Or.inl none
    · exact Or.inr ⟨p, same, by omega⟩
  case last =>
    intro j open_
    rw [closeAt_length, closeAt_parentOf]
    exact linked.last j ((closeAt_open ended).mp open_).2
  case held =>
    intro j open_
    rw [closeAt_parentOf]
    obtain ⟨other, before⟩ := (closeAt_open ended).mp open_
    have between := above_line ordered (linked.last i here) (linked.last j before) (highest j before)
    obtain ⟨p, link, above⟩ := above_parent between other
    refine ⟨p, ?_, above⟩
    rcases linked.lower i t entry with none | ⟨q, same, _⟩
    · simp [parentOf, entry, none] at link
    · rw [parentOf_some entry same] at link
      obtain rfl := Option.some.inj link
      exact same
  case sizes =>
    intro k u at_k
    rw [countP_links (closeAt_links i stop tokens)]
    rw [closeAt_entry] at at_k
    obtain ⟨v, old, rfl⟩ := Option.map_eq_some_iff.mp at_k
    have size := linked.sizes k v old
    split <;> exact size

theorem linked_super (linked : Linked super tokens) {next : Int} (holder : Holds next tokens)
    (held : ∀ j, openAt tokens j = true → ∃ k : Nat, next = k ∧ Above (parentOf tokens) k j) :
    Linked next tokens :=
  ⟨linked.lower, linked.boxes, holder, linked.last, held, linked.sizes⟩

theorem linked_colon (linked : Linked super tokens) :
    Linked ((tokens.length : Int) - 1) tokens := by
  apply linked_super linked
  · rcases Nat.eq_zero_or_pos tokens.length with none | some
    · exact Or.inl (by omega)
    · exact Or.inr ⟨tokens.length - 1, by omega, by omega⟩
  · intro j opened
    have inside := openAt_lt opened
    exact ⟨tokens.length - 1, by omega, linked.last j opened⟩

theorem linked_comma (linked : Linked super tokens) {k : Nat} (here : super = k)
    (entry : tokens[k]? = some t) (scalar : t.isContainer = false) : Linked t.parent tokens := by
  have inside := (List.getElem?_eq_some_iff.mp entry).1
  apply linked_super linked
  · rcases linked.lower k t entry with none | ⟨p, same, lower⟩
    · exact Or.inl none
    · exact Or.inr ⟨p, same, by omega⟩
  · intro j opened
    obtain ⟨k', same, above⟩ := linked.held j opened
    obtain rfl : k' = k := by omega
    have other : j ≠ k' := by
      rintro rfl
      obtain ⟨u, same, uOpen⟩ := openAt_iff.mp opened
      rw [entry] at same
      obtain rfl := Option.some.inj same
      have box := linked.boxes t (List.mem_of_getElem? entry) uOpen
      rw [scalar] at box
      cases box
    obtain ⟨p, link, up⟩ := above_parent above other
    refine ⟨p, ?_, up⟩
    rcases linked.lower k' t entry with none | ⟨q, same, _⟩
    · simp [parentOf, entry, none] at link
    · rw [parentOf_some entry same] at link
      obtain rfl := Option.some.inj link
      exact same

end

inductive Agree {α β : Type} (together : α → β → Prop) : Except JsmnErr α → Except JsmnErr β → Prop where
  | ok {a : α} {b : β} (holds : together a b) : Agree together (.ok a) (.ok b)
  | error (e : JsmnErr) : Agree together (.error e) (.error e)

theorem agree_same {α : Type} (x : Except JsmnErr α) : Agree Eq x x := by
  cases x with
  | ok a => exact .ok rfl
  | error e => exact .error e

theorem agree_bind {α β γ δ : Type} {together : α → β → Prop} {next : γ → δ → Prop}
    {x : Except JsmnErr α} {y : Except JsmnErr β} {f : α → Except JsmnErr γ}
    {g : β → Except JsmnErr δ} (agree : Agree together x y)
    (rest : ∀ a b, together a b → Agree next (f a) (g b)) : Agree next (x >>= f) (y >>= g) := by
  cases agree with
  | ok holds => exact rest _ _ holds
  | error e => exact .error e

structure SameToken (P : JsmnParser) (L : LinkParser) (p : JsmnParser) (q : LinkParser) : Prop where
  stored : ∃ (pos : Nat) (token : JsmnTok), token.isOpen = false ∧ token.isContainer = false ∧
    token.size = 0 ∧ p = ⟨pos, P.toksuper, P.tokens ++ [token]⟩ ∧
    q = ⟨pos, L.toksuper, L.tokens ++ [⟨token, L.toksuper⟩]⟩

section
variable {P : JsmnParser} {L : LinkParser}

theorem alloc_agrees (size : P.tokens.length = L.tokens.length) (numTokens : Nat) (t : JsmnTok)
    (u : LinkTok) : Agree (fun p q => p = { P with tokens := P.tokens ++ [t] } ∧
      q = { L with tokens := L.tokens ++ [u] })
      (jsmnAllocToken P numTokens t) (jsmnAllocTokenLinked L numTokens u) := by
  unfold jsmnAllocToken jsmnAllocTokenLinked JsmnParser.toknext LinkParser.toknext
  rw [size]
  split
  · exact .error _
  · exact .ok ⟨rfl, rfl⟩

theorem string_agrees (pos : P.pos = L.pos) (size : P.tokens.length = L.tokens.length) (js : Ptr)
    (len numTokens : Nat) : Agree (SameToken P L) (jsmnParseString P js len numTokens)
      (jsmnParseStringLinked L js len numTokens) := by
  unfold jsmnParseString jsmnParseStringLinked
  rw [pos]
  dsimp only
  refine agree_bind (agree_same (stringEnd js len (len - L.pos) (L.pos + 1))) ?_
  rintro stop _ rfl
  refine agree_bind (alloc_agrees size numTokens _ _) ?_
  rintro p q ⟨rfl, rfl⟩
  have closed : (jsmnFillToken .string (L.pos + 1 : Int) stop).isOpen = false :=
    ended_closed (Int.natCast_nonneg stop)
  exact .ok ⟨stop, _, closed, rfl, rfl, rfl, rfl⟩

theorem primitive_agrees (pos : P.pos = L.pos) (size : P.tokens.length = L.tokens.length) (js : Ptr)
    (len numTokens : Nat) : Agree (SameToken P L) (jsmnParsePrimitive P js len numTokens)
      (jsmnParsePrimitiveLinked L js len numTokens) := by
  unfold jsmnParsePrimitive jsmnParsePrimitiveLinked
  rw [pos]
  dsimp only
  refine agree_bind (agree_same (primitiveEnd js len (len - L.pos) L.pos)) ?_
  rintro stop _ rfl
  refine agree_bind (alloc_agrees size numTokens _ _) ?_
  rintro p q ⟨rfl, rfl⟩
  have closed : (jsmnFillToken .primitive (L.pos : Int) stop).isOpen = false :=
    ended_closed (Int.natCast_nonneg stop)
  exact .ok ⟨stop - 1, _, closed, rfl, rfl, rfl, rfl⟩

end

theorem open_agrees {P : JsmnParser} {L : LinkParser} (pos : P.pos = L.pos)
    (size : P.tokens.length = L.tokens.length) (numTokens : Nat) (type : JsmnType) :
    Agree (fun p q =>
        p = ⟨P.pos, P.tokens.length, (countMember P).tokens ++ [⟨type, P.pos, -1, 0⟩]⟩ ∧
        q = ⟨L.pos, L.tokens.length,
          grow L.toksuper L.tokens ++ [⟨⟨type, P.pos, -1, 0⟩, L.toksuper⟩]⟩)
      (openContainer P numTokens type) (openContainerLinked L numTokens type) := by
  have same : (countMember P).tokens.length = (countMemberLinked L).tokens.length := by
    rw [countMember_length, countMemberLinked, grow_length, size]
  have place : (countMember P).pos = P.pos := countMember_pos P
  unfold openContainer openContainerLinked
  rw [pos]
  refine agree_bind (alloc_agrees same numTokens _ _) ?_
  rintro p q ⟨rfl, rfl⟩
  refine .ok ⟨?_, ?_⟩
  · simp only [JsmnParser.toknext, List.length_append, countMember_length,
      List.length_singleton, JsmnParser.mk.injEq, and_true]
    omega
  · simp only [LinkParser.toknext, countMemberLinked, List.length_append, grow_length,
      List.length_singleton, LinkParser.mk.injEq, true_and, and_true]
    omega

theorem closeContainerLinked_at {L : LinkParser} (linked : Linked L.toksuper L.tokens) {i : Nat}
    {t : LinkTok} (entry : L.tokens[i]? = some t) (opened : t.isOpen = true)
    (highest : ∀ k, openAt L.tokens k = true → k ≤ i) (type : JsmnType) :
    closeContainerLinked L type =
      if t.type ≠ type then .error .inval
      else .ok ⟨L.pos, t.parent, closeAt i (L.pos + 1) L.tokens⟩ := by
  have here : openAt L.tokens i = true := openAt_iff.mpr ⟨t, entry, opened⟩
  have inside := openAt_lt here
  have some : ¬ L.toknext < 1 := by
    unfold LinkParser.toknext
    omega
  have found : closeSearch L.tokens L.toknext (L.toknext - 1) = i :=
    closeSearch_finds linked here highest
  have token : L.tok (i : Int) = t := by
    rw [LinkParser.tok, Int.toNat_natCast, List.getD_eq_getElem?_getD, entry]
    rfl
  unfold closeContainerLinked
  rw [if_neg some, found]
  simp only [token, opened, if_true]
  rfl

/-- The two parsers have seen the same tokens. Their sizes and the super tokens may differ. -/
structure Shaped (P : JsmnParser) (L : LinkParser) : Prop where
  pos : P.pos = L.pos
  shapes : P.tokens.map shape = L.tokens.map fun t => shape t.toJsmnTok
  linked : Linked L.toksuper L.tokens

theorem grow_shapes (super : Int) (tokens : List LinkTok) :
    ((grow super tokens).map fun t => shape t.toJsmnTok) = tokens.map fun t => shape t.toJsmnTok := by
  unfold grow
  split
  · exact modify_map (f := fun t : LinkTok => { t with size := t.size + 1 })
      (g := fun t => shape t.toJsmnTok) (fun _ => rfl) tokens _
  · rfl

theorem closeAt_shapes {tokens : List JsmnTok} {links : List LinkTok}
    (same : tokens.map shape = links.map fun t => shape t.toJsmnTok) (i : Nat) (stop : Int) :
    (tokens.modify i fun t => { t with end_ := stop }).map shape =
      (closeAt i stop links).map fun t => shape t.toJsmnTok := by
  apply List.ext_getElem?
  intro k
  have entry := congrArg (·[k]?) same
  simp only [List.getElem?_map] at entry
  rw [List.getElem?_map, List.getElem?_map, List.getElem?_modify, closeAt_entry]
  cases here : tokens[k]? with
  | none =>
    rw [here] at entry
    rw [Option.map_eq_none_iff.mp entry.symm]
    rfl
  | some t =>
    rw [here] at entry
    obtain ⟨u, there, alike⟩ := Option.map_eq_some_iff.mp entry.symm
    rw [there]
    obtain ⟨type, start, stop⟩ := shape_same alike
    by_cases this : i = k
    · simp [this, shape, type, start]
    · simp [this, shape, type, start, stop]

section
variable {P : JsmnParser} {L : LinkParser}

theorem shaped_length (shaped : Shaped P L) : P.tokens.length = L.tokens.length := by
  have size := congrArg List.length shaped.shapes
  rwa [List.length_map, List.length_map] at size

theorem shaped_entry (shaped : Shaped P L) (i : Nat) :
    (P.tokens[i]?).map shape = (L.tokens[i]?).map fun t => shape t.toJsmnTok := by
  have entry := congrArg (·[i]?) shaped.shapes
  simpa only [List.getElem?_map] using entry

theorem token_shaped (shaped : Shaped P L) {p : JsmnParser} {q : LinkParser}
    (same : SameToken P L p q) : Shaped (countMember p) (countMemberLinked q) := by
  obtain ⟨pos, token, closed, scalar, empty, rfl, rfl⟩ := same.stored
  refine ⟨countMember_pos _, ?_, ?_⟩
  · rw [countMember_shapes, countMemberLinked, grow_shapes, List.map_append, List.map_append,
      shaped.shapes]
    rfl
  · have linked : Linked L.toksuper (grow L.toksuper (L.tokens ++ [⟨token, L.toksuper⟩])) :=
      linked_stored shaped.linked (stored_grown shaped.linked.holder ⟨token, L.toksuper⟩) rfl empty
        (fun opened => absurd opened (by simp [closed])) (by simp [closed])
    exact linked

theorem opened_shaped (shaped : Shaped P L) {type : JsmnType}
    (box : type = .object ∨ type = .array) {p : JsmnParser} {q : LinkParser}
    (same : p = ⟨P.pos, P.tokens.length, (countMember P).tokens ++ [⟨type, P.pos, -1, 0⟩]⟩ ∧
      q = ⟨L.pos, L.tokens.length,
        grow L.toksuper L.tokens ++ [⟨⟨type, P.pos, -1, 0⟩, L.toksuper⟩]⟩) : Shaped p q := by
  obtain ⟨rfl, rfl⟩ := same
  have opened := bracket_open type P.pos
  have container := bracket_container P.pos box
  refine ⟨shaped.pos, ?_, ?_⟩
  · rw [List.map_append, List.map_append, countMember_shapes, grow_shapes, shaped.shapes]
    rfl
  · exact linked_stored shaped.linked (stored_grow shaped.linked.holder _) rfl rfl
      (fun _ => container) (by simp [opened])

theorem close_shaped (shaped : Shaped P L) (type : JsmnType) :
    closeContainer P type = .error .inval ∨
      Agree Shaped (closeContainer P type) (closeContainerLinked L type) := by
  rcases open_split P.tokens with
    ⟨none_open, _⟩ | ⟨before, t, after, _, split, opened, quiet⟩
  · left
    simp only [closeContainer, JsmnParser.toknext, none_open]
  right
  -- the same token is the last open one of the other parser
  have entryP : P.tokens[before.length]? = some t := by
    rw [split, List.getElem?_append_right (Nat.le_refl _), Nat.sub_self]
    rfl
  have entries := shaped_entry shaped before.length
  rw [entryP] at entries
  obtain ⟨u, entry, same⟩ := Option.map_eq_some_iff.mp entries.symm
  have openU : u.isOpen = true := (shape_open same).trans opened
  have highest : ∀ k, openAt L.tokens k = true → k ≤ before.length := by
    intro k open_
    obtain ⟨v, at_k, vOpen⟩ := openAt_iff.mp open_
    by_contra beyond
    have entries := shaped_entry shaped k
    rw [at_k] at entries
    obtain ⟨w, at_k', same'⟩ := Option.map_eq_some_iff.mp entries
    rw [split, List.getElem?_append_right (by omega)] at at_k'
    obtain ⟨m, further⟩ : ∃ m, k - before.length = m + 1 := ⟨k - before.length - 1, by omega⟩
    rw [further, List.getElem?_cons_succ] at at_k'
    have shut := quiet w (List.mem_of_getElem? at_k')
    rw [shape_open same', vOpen] at shut
    cases shut
  have typed : u.type = t.type := (shape_same same).1
  obtain ⟨pos, super, tokens⟩ := P
  dsimp only at split
  subst split
  rw [closeContainer_at pos super before opened quiet,
    closeContainerLinked_at shaped.linked entry openU highest, typed]
  by_cases mismatch : t.type ≠ type
  · rw [if_pos mismatch, if_pos mismatch]
    exact .error _
  · rw [if_neg mismatch, if_neg mismatch]
    refine .ok ⟨shaped.pos, ?_, ?_⟩
    · have closed := closeAt_shapes shaped.shapes before.length (pos + 1)
      have place : pos = L.pos := shaped.pos
      rw [modify_at, place] at closed
      rw [place]
      exact closed
    · exact linked_close shaped.linked entry openU highest (by omega)

theorem comma_shaped (shaped : Shaped P L) : Shaped (endMember P) (endMemberLinked L) := by
  have plain : (endMember P).tokens = P.tokens ∧ (endMember P).pos = P.pos := by
    unfold endMember
    repeat' split
    all_goals exact ⟨rfl, rfl⟩
  have links : (endMemberLinked L).tokens = L.tokens ∧ (endMemberLinked L).pos = L.pos := by
    unfold endMemberLinked
    split
    all_goals exact ⟨rfl, rfl⟩
  refine ⟨?_, ?_, ?_⟩
  · rw [plain.2, links.2, shaped.pos]
  · rw [plain.1, links.1, shaped.shapes]
  · rw [links.1]
    unfold endMemberLinked
    split
    · rename_i scalar
      obtain ⟨present, scalar⟩ := scalar
      rcases shaped.linked.holder with none | ⟨k, here, inside⟩
      · exact absurd none present
      · have entry : L.tokens[k]? = some (L.tok L.toksuper) := by
          rw [LinkParser.tok, here, Int.toNat_natCast, List.getD_eq_getElem?_getD,
            List.getElem?_eq_getElem inside]
          rfl
        exact linked_comma shaped.linked here entry scalar
    · exact shaped.linked

theorem char_shaped (shaped : Shaped P L) (js : Ptr) (len numTokens : Nat) :
    jsmnParseChar P js len numTokens = .error .inval ∨
      Agree (fun a b => Shaped a.1 b.1 ∧ a.2 = b.2) (jsmnParseChar P js len numTokens)
        (jsmnParseCharLinked L js len numTokens) := by
  have size := shaped_length shaped
  unfold jsmnParseChar jsmnParseCharLinked
  rw [shaped.pos]
  dsimp only
  by_cases opening : js L.pos = chr '{' ∨ js L.pos = chr '['
  · rw [if_pos opening, if_pos opening]
    right
    refine agree_bind (open_agrees shaped.pos size numTokens _) ?_
    intro p q same
    refine .ok ⟨opened_shaped shaped ?_ same, rfl⟩
    split
    · exact Or.inl rfl
    · exact Or.inr rfl
  rw [if_neg opening, if_neg opening]
  by_cases closing : js L.pos = chr '}' ∨ js L.pos = chr ']'
  · rw [if_pos closing, if_pos closing]
    rcases close_shaped shaped (if js L.pos = chr '}' then .object else .array) with fails | agree
    · left
      rw [fails]
      rfl
    · right
      exact agree_bind agree fun p q shaped => .ok ⟨shaped, rfl⟩
  rw [if_neg closing, if_neg closing]
  right
  by_cases quote : js L.pos = chr '\"'
  · rw [if_pos quote, if_pos quote]
    exact agree_bind (string_agrees shaped.pos size js len numTokens)
      fun p q same => .ok ⟨token_shaped shaped same, rfl⟩
  rw [if_neg quote, if_neg quote]
  by_cases blank : js L.pos = chr '\t' ∨ js L.pos = chr '\r' ∨ js L.pos = chr '\n' ∨ js L.pos = chr ' '
  · rw [if_pos blank, if_pos blank]
    exact .ok ⟨shaped, rfl⟩
  rw [if_neg blank, if_neg blank]
  by_cases colon : js L.pos = chr ':'
  · rw [if_pos colon, if_pos colon]
    exact .ok ⟨⟨rfl, shaped.shapes, linked_colon shaped.linked⟩, rfl⟩
  rw [if_neg colon, if_neg colon]
  by_cases comma : js L.pos = chr ','
  · rw [if_pos comma, if_pos comma]
    exact .ok ⟨comma_shaped shaped, rfl⟩
  rw [if_neg comma, if_neg comma]
  exact agree_bind (primitive_agrees shaped.pos size js len numTokens)
    fun p q same => .ok ⟨token_shaped shaped same, rfl⟩

end

theorem loop_shaped (js : Ptr) (len numTokens : Nat) : ∀ (fuel count : Nat) {P : JsmnParser}
    {L : LinkParser}, Shaped P L → jsmnParseLoop js len numTokens fuel P count = .error .inval ∨
      Agree (fun a b => Shaped a.1 b.1 ∧ a.2 = b.2) (jsmnParseLoop js len numTokens fuel P count)
        (jsmnParseLoopLinked js len numTokens fuel L count) := by
  intro fuel
  induction fuel with
  | zero => intro count P L shaped; exact Or.inr (.ok ⟨shaped, rfl⟩)
  | succ fuel ih =>
    intro count P L shaped
    rw [jsmnParseLoop, jsmnParseLoopLinked, shaped.pos]
    by_cases inside : L.pos < len ∧ js L.pos ≠ 0
    · rw [if_pos inside, if_pos inside]
      have pass := char_shaped shaped js len numTokens
      generalize jsmnParseChar P js len numTokens = x at pass ⊢
      generalize jsmnParseCharLinked L js len numTokens = y at pass ⊢
      rcases pass with fails | agree
      · left
        rw [fails]
        rfl
      · cases agree with
        | error e => exact Or.inr (.error e)
        | @ok a b holds =>
          obtain ⟨p, added⟩ := a
          obtain ⟨q, same⟩ := b
          obtain ⟨next, rfl⟩ : Shaped p q ∧ added = same := holds
          have moved : Shaped { p with pos := p.pos + 1 } { q with pos := q.pos + 1 } :=
            ⟨congrArg (· + 1) next.pos, next.shapes, next.linked⟩
          exact ih (count + added) moved
    · rw [if_neg inside, if_neg inside]
      exact Or.inr (.ok ⟨shaped, rfl⟩)

structure Genealogy (toks : List JsmnTok) (linked : List LinkTok) : Prop where
  shapes : toks.map shape = linked.map fun t => shape t.toJsmnTok
  lower : ∀ (i : Nat) t, linked[i]? = some t → t.parent = -1 ∨ ∃ p : Nat, t.parent = p ∧ p < i
  sizes : ∀ (i : Nat) t, linked[i]? = some t →
    t.size = (linked.countP fun u => u.parent = (i : Int) : Nat)

/-- Any text, with any number of entries: whatever jsmn_parse makes of it without links, if it is
    not JSMN_ERROR_INVAL, it makes of it with links as well, with the same tokens up to their
    sizes. With links a token's size is the number of tokens linked to it. -/
theorem jsmnParseLinked_covers (js : Ptr) (len numTokens : Nat) :
    jsmnParse js len numTokens = .error .inval ∨
      Agree (fun a b => a.1 = b.1 ∧ Genealogy a.2 b.2) (jsmnParse js len numTokens)
        (jsmnParseLinked js len numTokens) := by
  have start : Shaped jsmnInit jsmnInitLinked := ⟨rfl, rfl, init_linked⟩
  have looped := loop_shaped js len numTokens len 0 start
  unfold jsmnParse jsmnParseLinked
  generalize jsmnParseLoop js len numTokens len jsmnInit 0 = x at looped ⊢
  generalize jsmnParseLoopLinked js len numTokens len jsmnInitLinked 0 = y at looped ⊢
  rcases looped with fails | agree
  · left
    rw [fails]
    rfl
  right
  refine agree_bind agree ?_
  rintro ⟨p, count⟩ ⟨q, counted⟩ ⟨shaped, same⟩
  dsimp only at shaped same ⊢
  have shapes : p.tokens.map shape = (q.tokens.map LinkTok.toJsmnTok).map shape := by
    rw [shaped.shapes, List.map_map]
    rfl
  have search := lastBelow_shapes shapes p.toknext
  have size : p.toknext = q.toknext := shaped_length shaped
  rw [search, size]
  split
  · exact .error _
  · exact .ok ⟨same, shaped.shapes, shaped.linked.lower, shaped.linked.sizes⟩

end RoverLinks
