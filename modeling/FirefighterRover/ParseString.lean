import Mathlib.Data.List.Chain
import Mathlib.Data.List.Find
import Mathlib.Data.List.Induction
import Mathlib.Data.List.TakeDrop
import FirefighterRover.JsmnFlat

/-!
The key loop of parse_string over the tokens of a payload. It takes a recognised name as a
key wherever it stands, and the token behind it as its value.
-/
namespace RoverParseString
open CMemory RoverJsmn RoverJson RoverOutline RoverFlat FlatJson

def keyOf (s : Spelling) : Option String := knownKeys.find? fun key => s = (.string, lit key)

theorem known_text {key : String} (known : key ∈ knownKeys) :
    lit key ≠ [] ∧ ∀ c ∈ lit key, c ≠ 0 := by
  simp only [knownKeys, List.mem_cons, List.not_mem_nil, or_false] at known
  rcases known with rfl | rfl | rfl | rfl
  · exact ⟨by decide, clean_of_all (by decide)⟩
  · exact ⟨by decide, clean_of_all (by decide)⟩
  · exact ⟨by decide, clean_of_all (by decide)⟩
  · exact ⟨by decide, clean_of_all (by decide)⟩

theorem keyOf_spell (js : Ptr) (t : JsmnTok) :
    (knownKeys.find? fun key => jsoneq js t (lit key) = 0) = keyOf (spell js t) := by
  apply List.find?_congr
  intro key known
  obtain ⟨nonempty, clean⟩ := known_text known
  exact decide_eq_decide.mpr (jsoneq_spell js t nonempty clean)

def keyText (key : String) (text : List UInt8) : List UInt8 :=
  lit "- " ++ lit key ++ lit ": " ++ text ++ lit "\n"

def unexpectedText (text : List UInt8) : List UInt8 :=
  lit "Unexpected key: " ++ text ++ lit "\n"

def keyLine (key : String) (i : Nat) (text : List UInt8) : Line :=
  ⟨[i, i + 1], report (keyText key text)⟩

def unexpectedLine (i : Nat) (text : List UInt8) : Line := ⟨[i], report (unexpectedText text)⟩

theorem loop_step (js : Ptr) (t : Nat → JsmnTok) {parsed i : Nat} (fuel : Nat)
    (inside : i < parsed) :
    parseStringLoop js t parsed (fuel + 1) i =
      match keyOf (spell js (t i)) with
      | some key => keyLine key i (tokenText js (t (i + 1))) ::
          parseStringLoop js t parsed fuel (i + 2)
      | none => unexpectedLine i (tokenText js (t i)) ::
          parseStringLoop js t parsed fuel (i + 1) := by
  rw [parseStringLoop, if_pos inside, keyOf_spell]
  cases keyOf (spell js (t i)) <;> rfl

theorem loop_end (js : Ptr) (t : Nat → JsmnTok) {parsed i : Nat} (fuel : Nat)
    (outside : ¬ i < parsed) :
    parseStringLoop js t parsed fuel i = [] := by
  cases fuel with
  | zero => rfl
  | succ fuel => exact if_neg outside

def trailing (names : List Bool) : List Bool := names.reverse.takeWhile id

/-- The walk of the loop over names and other tokens: a name takes its neighbour along. -/
def Aligned : List Bool → Prop
  | [] => True
  | false :: names => Aligned names
  | [true] => False
  | true :: _ :: names => Aligned names

theorem trailing_cases (names : List Bool) :
    names = List.replicate (trailing names).length true ∨
    ∃ before, names = before ++ false :: List.replicate (trailing names).length true := by
  induction names using List.reverseRecOn with
  | nil => exact Or.inl rfl
  | append_singleton names last ih =>
    cases last with
    | false =>
      have stopped : trailing (names ++ [false]) = [] := by simp [trailing]
      rw [stopped]
      exact Or.inr ⟨names, rfl⟩
    | true =>
      have longer : (trailing (names ++ [true])).length = (trailing names).length + 1 := by
        simp [trailing]
      rw [longer, List.replicate_succ']
      rcases ih with all | ⟨before, split⟩
      · exact Or.inl (congrArg (· ++ [true]) all)
      · right
        refine ⟨before, ?_⟩
        rw [← List.cons_append, ← List.append_assoc]
        exact congrArg (· ++ [true]) split

theorem aligned_append_other (before after : List Bool) :
    Aligned (before ++ false :: after) ↔ Aligned after := by
  induction before using Aligned.induct with
  | case1 => rfl
  | case2 names ih => exact ih
  | case3 => rfl
  | case4 other names ih => exact ih

theorem aligned_replicate : ∀ k, Aligned (List.replicate k true) ↔ k % 2 = 0
  | 0 => iff_of_true trivial rfl
  | 1 => iff_of_false id (by decide)
  | k + 2 => by
    have rest := aligned_replicate k
    simp only [List.replicate_succ, Aligned]
    rw [rest]
    omega

theorem aligned_iff (names : List Bool) : Aligned names ↔ (trailing names).length % 2 = 0 := by
  rcases trailing_cases names with all | ⟨before, split⟩
  · have walk := aligned_replicate (trailing names).length
    rw [← all] at walk
    exact walk
  · have walk := aligned_append_other before (List.replicate (trailing names).length true)
    rw [← split] at walk
    exact walk.trans (aligned_replicate _)

def names (js : Ptr) (toks : List JsmnTok) : List Bool :=
  toks.map fun t => (keyOf (spell js t)).isSome

theorem tokenArray_filled {filled : List JsmnTok} (stack : Nat → JsmnTok) {i : Nat} {t : JsmnTok}
    {rest : List JsmnTok} (here : filled.drop i = t :: rest) :
    i < filled.length ∧ tokenArray filled stack i = t ∧ filled.drop (i + 1) = rest := by
  have found : filled[i]? = some t := by
    rw [← List.head?_drop, here]
    rfl
  have after : (filled.drop i).drop 1 = rest := by
    rw [here]
    rfl
  rw [List.drop_drop] at after
  refine ⟨(List.getElem?_eq_some_iff.mp found).1, ?_, after⟩
  rw [tokenArray, List.getD_eq_getElem?_getD, found]
  rfl

theorem loop_reads (js : Ptr) (filled : List JsmnTok) (stack : Nat → JsmnTok) :
    ∀ (fuel i : Nat), filled.length ≤ fuel + i →
    ((∀ line ∈ parseStringLoop js (tokenArray filled stack) filled.length fuel i,
        ∀ k ∈ line.reads, k < filled.length) ↔ Aligned (names js (filled.drop i))) := by
  intro fuel
  induction fuel using Nat.strongRecOn with
  | ind fuel ih =>
    intro i enough
    cases here : filled.drop i with
    | nil =>
      have outside : ¬ i < filled.length := Nat.not_lt.mpr (List.drop_eq_nil_iff.mp here)
      rw [loop_end js _ fuel outside]
      exact iff_of_true (by simp) trivial
    | cons t rest =>
      obtain ⟨inside, entry, next⟩ := tokenArray_filled stack here
      obtain ⟨fuel, rfl⟩ : ∃ n, fuel = n + 1 := ⟨fuel - 1, by omega⟩
      rw [loop_step js _ fuel inside, entry]
      cases known : keyOf (spell js t) with
      | none =>
        have step := ih fuel (by omega) (i + 1) (by omega)
        rw [next] at step
        have walk : names js (t :: rest) = false :: names js rest := by simp [names, known]
        rw [walk, Aligned, ← step, List.forall_mem_cons]
        simp [unexpectedLine, inside]
      | some key =>
        cases rest with
        | nil =>
          have last : ¬ i + 1 < filled.length := Nat.not_lt.mpr (List.drop_eq_nil_iff.mp next)
          have walk : names js [t] = [true] := by simp [names, known]
          rw [walk, List.forall_mem_cons]
          simp [keyLine, last, Aligned]
        | cons u rest =>
          obtain ⟨bound, _, after⟩ := tokenArray_filled stack next
          have walk : names js (t :: u :: rest) =
              true :: (keyOf (spell js u)).isSome :: names js rest := by
            simp [names, known]
          rw [walk, Aligned, List.forall_mem_cons]
          have reads : ∀ k ∈ (keyLine key i (tokenText js (tokenArray filled stack (i + 1)))).reads,
              k < filled.length := by
            simp [keyLine, inside, bound]
          cases fuel with
          | zero =>
            exfalso
            omega
          | succ fuel =>
            have step := ih (fuel + 1) (by omega) (i + 2) (by omega)
            rw [after] at step
            rw [← step]
            exact and_iff_right reads

def stringLines (payload : Ptr) (payloadLen : Nat) (stack : Nat → JsmnTok) : List Line :=
  match jsmnParse payload payloadLen 128 with
  | .error _ => []
  | .ok (parsed, filled) => parseStringLoop payload (tokenArray filled stack) parsed parsed 1

def ReadsFilled (payload : Ptr) (payloadLen : Nat) (stack : Nat → JsmnTok) : Prop :=
  ∀ parsed filled, jsmnParse payload payloadLen 128 = .ok (parsed, filled) →
    ∀ line ∈ stringLines payload payloadLen stack, ∀ i ∈ line.reads,
      i < parsed ∧ i < filled.length ∧ i < 128

/-- The recognised names the token list ends with come in pairs. -/
def NamesPaired (payload : Ptr) (payloadLen : Nat) : Prop :=
  ∀ parsed filled, jsmnParse payload payloadLen 128 = .ok (parsed, filled) →
    (trailing (names payload (filled.drop 1))).length % 2 = 0

theorem readsFilled_iff (payload : Ptr) (payloadLen : Nat) (stack : Nat → JsmnTok) :
    ReadsFilled payload payloadLen stack ↔ NamesPaired payload payloadLen := by
  unfold ReadsFilled NamesPaired stringLines
  cases result : jsmnParse payload payloadLen 128 with
  | error r => simp
  | ok value =>
    obtain ⟨parsed, filled⟩ := value
    obtain ⟨_, _, _, _, counted, few⟩ := jsmnParse_sound result
    have walk := loop_reads payload filled stack filled.length 1 (by omega)
    rw [aligned_iff] at walk
    constructor
    · rintro inside p f same
      cases same
      rw [← walk]
      intro line member i read
      subst counted
      exact (inside _ _ rfl line member i read).2.1
    · rintro paired p f same line member i read
      cases same
      subst counted
      have bound := walk.mpr (paired _ _ rfl) line member i read
      exact ⟨bound, bound, by omega⟩

theorem name_alone_reads_stack :
    ¬ ∀ payload payloadLen stack, ReadsFilled payload payloadLen stack := by
  intro every
  have inside := every (cstr (lit "\x7b\"ArmStatus\"\x7d")) 13 (fun _ => ⟨.undefined, 0, 0, 0⟩) 2
    [⟨.object, 0, 13, 1⟩, ⟨.string, 2, 11, 0⟩] (by decide)
  revert inside
  decide

def isKeyReport (text : List UInt8) : Bool :=
  knownKeys.any fun key => (lit "- " ++ lit key ++ lit ": ").isPrefixOf text

def isKeyLine (line : Line) : Bool := isKeyReport line.report

def memberLines : Nat → List Member → List Line
  | _, [] => []
  | i, m :: members =>
    match keyOf (.string, m.key.text) with
    | some key => ⟨[i, i + 1], keyText key m.value.text⟩ :: memberLines (i + 2) members
    | none => memberLines (i + 2) members

def EndsLine (text : List UInt8) : Prop := text.getLast? = some (chr '\n')

/-- The loop's lines are all that is printed. Among them is exactly one for each member with a
    recognised key, whole, with its own value, in order, and it begins a line of the console. -/
structure MembersReported (o : FlatObject) (payload : Ptr) (stack : Nat → JsmnTok) : Prop where
  printed : parseString payload o.bytes.length stack =
    (stringLines payload o.bytes.length stack).map Line.report ++ [lit "\n"]
  members : (stringLines payload o.bytes.length stack).filter isKeyLine = memberLines 1 o.members
  apart : ((stringLines payload o.bytes.length stack).map Line.report).IsChain fun before text =>
    isKeyReport text = true → EndsLine before

def ValuesUnnamed (members : List Member) : Prop :=
  ∀ m ∈ members, keyOf (.string, m.key.text) = none → keyOf (scalarSpelling m.value) = none

def KeysFit (members : List Member) : Prop :=
  ∀ m ∈ members, ∀ key, keyOf (.string, m.key.text) = some key →
    (keyText key m.value.text).length ≤ 511

/-- The line of an unrecognised member in front of a recognised one does not lose its end: it
    has no 511th byte, or that is a newline. -/
def EndsKept (members : List Member) : Prop :=
  members.IsChain fun m n => keyOf (.string, m.key.text) = none →
    keyOf (.string, n.key.text) ≠ none →
    ∀ c ∈ (unexpectedText m.value.text)[510]?, c = chr '\n'

theorem report_whole_iff (text : List UInt8) : report text = text ↔ text.length ≤ 511 :=
  List.take_eq_self_iff text

theorem report_ends_iff {text : List UInt8} (ends : EndsLine text) :
    EndsLine (report text) ↔ ∀ c ∈ text[510]?, c = chr '\n' := by
  have last : (report text).getLast? = text[510]?.or (some (chr '\n')) := by
    rw [report, snprintf, List.getLast?_take, ends]
    rfl
  rw [EndsLine, last]
  cases text[510]? with
  | none => simp
  | some c => simp

theorem keyText_ends (key : String) (text : List UInt8) : EndsLine (keyText key text) := by
  have newline : lit "\n" = [chr '\n'] := rfl
  rw [EndsLine, keyText, newline, List.getLast?_concat]

theorem unexpectedText_ends (text : List UInt8) : EndsLine (unexpectedText text) := by
  have newline : lit "\n" = [chr '\n'] := rfl
  rw [EndsLine, unexpectedText, newline, List.getLast?_concat]

theorem keyText_isKeyReport {s : Spelling} {key : String} (found : keyOf s = some key)
    (text : List UInt8) : isKeyReport (report (keyText key text)) = true := by
  have known : key ∈ knownKeys := List.mem_of_find?_eq_some found
  have short : ∀ key ∈ knownKeys, (lit "- " ++ lit key ++ lit ": ").length ≤ 511 := by decide
  refine List.any_eq_true.mpr ⟨key, known, List.isPrefixOf_iff_prefix.mpr ?_⟩
  rw [report, snprintf, List.prefix_take_iff]
  refine ⟨?_, short key known⟩
  rw [keyText, List.append_assoc _ text]
  exact List.prefix_append _ _

theorem unexpectedText_other (text : List UInt8) :
    isKeyReport (report (unexpectedText text)) = false := by
  rw [isKeyReport, List.any_eq_false]
  intro key _
  -- the two texts differ in their first byte
  simp [report, snprintf, unexpectedText, lit, chr]

theorem scalar_clean (value : Scalar) : ∀ c ∈ value.text, c ≠ 0 := by
  intro c member
  rintro rfl
  cases value with
  | quoted s => exact absurd (s.plain 0 member) (by decide)
  | bare b => exact absurd (b.bare 0 member) (by decide)

theorem scalarSpelling_text {js : Ptr} {t : JsmnTok} {value : Scalar}
    (spelled : spell js t = scalarSpelling value) : tokenText js t = value.text := by
  have bytes := scalarSpelling_bytes spelled
  have clean := scalar_clean value
  rw [← bytes] at clean ⊢
  exact strn_image clean

theorem memberLines_from : ∀ (members : List Member) (i : Nat), ∀ line ∈ memberLines i members,
    ∃ k, i ≤ k ∧ line.reads = [k, k + 1] := by
  intro members
  induction members with
  | nil => intro i line member; cases member
  | cons m members ih =>
    intro i line member
    have later : ∀ line ∈ memberLines (i + 2) members, ∃ k, i ≤ k ∧ line.reads = [k, k + 1] := by
      intro line member
      obtain ⟨k, bound, reads⟩ := ih (i + 2) line member
      exact ⟨k, by omega, reads⟩
    rw [memberLines] at member
    split at member
    · rcases List.mem_cons.mp member with rfl | member
      · exact ⟨i, Nat.le_refl i, rfl⟩
      · exact later line member
    · exact later line member

theorem member_entries {js : Ptr} {filled : List JsmnTok} (stack : Nat → JsmnTok) {i : Nat}
    {m : Member} {members : List Member}
    (spelled : (filled.drop i).map (spell js) = (m :: members).flatMap memberSpelling) :
    i + 1 < filled.length ∧ spell js (tokenArray filled stack i) = (.string, m.key.text) ∧
      spell js (tokenArray filled stack (i + 1)) = scalarSpelling m.value ∧
      (filled.drop (i + 2)).map (spell js) = members.flatMap memberSpelling := by
  rw [List.flatMap_cons, memberSpelling, List.cons_append, List.cons_append,
    List.nil_append] at spelled
  obtain ⟨t, rest, here, key, spelled⟩ := List.map_eq_cons_iff.mp spelled
  obtain ⟨u, others, rfl, value, spelled⟩ := List.map_eq_cons_iff.mp spelled
  obtain ⟨_, entry, next⟩ := tokenArray_filled stack here
  obtain ⟨bound, neighbour, after⟩ := tokenArray_filled stack next
  rw [entry, neighbour, after]
  exact ⟨bound, key, value, spelled⟩

theorem valuesUnnamed_cons (m : Member) (members : List Member) :
    ValuesUnnamed (m :: members) ↔
      (keyOf (.string, m.key.text) = none → keyOf (scalarSpelling m.value) = none) ∧
        ValuesUnnamed members := List.forall_mem_cons

theorem keysFit_cons (m : Member) (members : List Member) :
    KeysFit (m :: members) ↔
      (∀ key, keyOf (.string, m.key.text) = some key →
        (keyText key m.value.text).length ≤ 511) ∧ KeysFit members := List.forall_mem_cons

theorem loop_members (js : Ptr) (filled : List JsmnTok) (stack : Nat → JsmnTok) :
    ∀ (members : List Member) (fuel i : Nat), filled.length ≤ fuel + i →
    (filled.drop i).map (spell js) = members.flatMap memberSpelling →
    ((parseStringLoop js (tokenArray filled stack) filled.length fuel i).filter isKeyLine =
      memberLines i members ↔ ValuesUnnamed members ∧ KeysFit members) := by
  intro members
  induction members with
  | nil =>
    intro fuel i _ spelled
    have ended : filled.drop i = [] := List.map_eq_nil_iff.mp spelled
    have outside : ¬ i < filled.length := Nat.not_lt.mpr (List.drop_eq_nil_iff.mp ended)
    rw [loop_end js _ fuel outside]
    exact iff_of_true rfl (by simp [ValuesUnnamed, KeysFit])
  | cons m members ih =>
    intro fuel i enough spelled
    obtain ⟨bound, key, value, spelled⟩ := member_entries stack spelled
    obtain ⟨fuel, rfl⟩ : ∃ n, fuel = n + 2 := ⟨fuel - 2, by omega⟩
    rw [valuesUnnamed_cons, keysFit_cons, memberLines,
      loop_step js _ (fuel + 1) (Nat.lt_of_succ_lt bound), key, scalarSpelling_text value]
    cases recognised : keyOf (.string, m.key.text) with
    | some name =>
      have rest := ih (fuel + 1) (i + 2) (by omega) spelled
      have mine : isKeyLine (keyLine name i m.value.text) = true :=
        keyText_isKeyReport recognised m.value.text
      rw [List.filter_cons, if_pos mine, List.cons.injEq, rest, keyLine, Line.mk.injEq,
        report_whole_iff]
      simp
      tauto
    | none =>
      have skipped : isKeyLine (unexpectedLine i (tokenText js (tokenArray filled stack i))) = false :=
        unexpectedText_other _
      rw [List.filter_cons, skipped, if_neg (by decide), loop_step js _ fuel bound, value]
      cases taken : keyOf (scalarSpelling m.value) with
      | none =>
        have rest := ih fuel (i + 2) (by omega) spelled
        have passed : isKeyLine
            (unexpectedLine (i + 1) (tokenText js (tokenArray filled stack (i + 1)))) = false :=
          unexpectedText_other _
        rw [List.filter_cons, passed, if_neg (by decide), rest]
        simp
      | some name =>
        -- the value is taken for a key at an entry where no member has one
        refine iff_of_false ?_ (by simp)
        intro same
        have key_line : isKeyLine
            (keyLine name (i + 1) (tokenText js (tokenArray filled stack (i + 2)))) = true :=
          keyText_isKeyReport taken _
        rw [List.filter_cons, if_pos key_line] at same
        have listed : keyLine name (i + 1) (tokenText js (tokenArray filled stack (i + 2))) ∈
            memberLines (i + 2) members := by
          have kept : _ :: _ = memberLines (i + 2) members := same
          rw [← kept]
          exact List.mem_cons_self
        obtain ⟨k, later, reads⟩ := memberLines_from members (i + 2) _ listed
        simp only [keyLine, List.cons.injEq] at reads
        omega

def memberReports (m : Member) : List (List UInt8) :=
  match keyOf (.string, m.key.text) with
  | some key => [report (keyText key m.value.text)]
  | none => [report (unexpectedText m.key.text), report (unexpectedText m.value.text)]

theorem loop_reports (js : Ptr) (filled : List JsmnTok) (stack : Nat → JsmnTok) :
    ∀ (members : List Member) (fuel i : Nat), filled.length ≤ fuel + i →
    (filled.drop i).map (spell js) = members.flatMap memberSpelling → ValuesUnnamed members →
    (parseStringLoop js (tokenArray filled stack) filled.length fuel i).map Line.report =
      members.flatMap memberReports := by
  intro members
  induction members with
  | nil =>
    intro fuel i _ spelled _
    have ended : filled.drop i = [] := List.map_eq_nil_iff.mp spelled
    have outside : ¬ i < filled.length := Nat.not_lt.mpr (List.drop_eq_nil_iff.mp ended)
    rw [loop_end js _ fuel outside]
    rfl
  | cons m members ih =>
    intro fuel i enough spelled unnamed
    obtain ⟨bound, key, value, spelled⟩ := member_entries stack spelled
    obtain ⟨fuel, rfl⟩ : ∃ n, fuel = n + 2 := ⟨fuel - 2, by omega⟩
    obtain ⟨here, later⟩ := (valuesUnnamed_cons m members).mp unnamed
    rw [List.flatMap_cons, memberReports,
      loop_step js _ (fuel + 1) (Nat.lt_of_succ_lt bound), key, scalarSpelling_text value]
    cases recognised : keyOf (.string, m.key.text) with
    | some name =>
      rw [List.map_cons, ih (fuel + 1) (i + 2) (by omega) spelled later]
      rfl
    | none =>
      have keyed : tokenText js (tokenArray filled stack i) = m.key.text :=
        @scalarSpelling_text _ _ (.quoted m.key) key
      rw [List.map_cons, loop_step js _ fuel bound, value, here recognised, List.map_cons,
        ih fuel (i + 2) (by omega) spelled later, keyed, scalarSpelling_text value]
      rfl

theorem reports_head (m : Member) (rest : List (List UInt8)) :
    ∃ first others, memberReports m ++ rest = first :: others ∧
      (isKeyReport first = true ↔ keyOf (.string, m.key.text) ≠ none) := by
  unfold memberReports
  cases known : keyOf (.string, m.key.text) with
  | some key => exact ⟨_, _, rfl, by simp [keyText_isKeyReport known]⟩
  | none => exact ⟨_, _, rfl, by simp [unexpectedText_other]⟩

theorem reports_apart {members : List Member} (fit : KeysFit members) :
    ((members.flatMap memberReports).IsChain fun before text =>
      isKeyReport text = true → EndsLine before) ↔ EndsKept members := by
  induction members with
  | nil => simp [EndsKept]
  | cons m members ih =>
    obtain ⟨short, fit⟩ := (keysFit_cons m members).mp fit
    have kept : EndsKept (m :: members) ↔
        (∀ n ∈ members.head?, keyOf (.string, m.key.text) = none →
          keyOf (.string, n.key.text) ≠ none →
          ∀ c ∈ (unexpectedText m.value.text)[510]?, c = chr '\n') ∧ EndsKept members :=
      List.isChain_cons
    rw [kept, List.flatMap_cons, ← ih fit, memberReports]
    cases known : keyOf (.string, m.key.text) with
    | some key =>
      have whole := (report_whole_iff (keyText key m.value.text)).mpr (short key known)
      have ends : EndsLine (report (keyText key m.value.text)) := by
        rw [whole]
        exact keyText_ends key m.value.text
      rw [List.singleton_append, List.isChain_cons]
      simp [ends]
    | none =>
      have value_line : isKeyReport (report (unexpectedText m.value.text)) = false :=
        unexpectedText_other m.value.text
      rw [List.cons_append, List.singleton_append, List.isChain_cons_cons, List.isChain_cons,
        report_ends_iff (unexpectedText_ends m.value.text), value_line]
      cases members with
      | nil => simp
      | cons n members =>
        obtain ⟨first, others, split, recognised⟩ :=
          reports_head n (members.flatMap memberReports)
        rw [List.flatMap_cons, split]
        simp [recognised]

theorem parseString_object {payload : Ptr} {payloadLen : Nat} {toks : List JsmnTok} {r : Nat}
    {others : List Spelling} (stack : Nat → JsmnTok)
    (parsed : jsmnParse payload payloadLen 128 = .ok (r, toks)) (counted : 0 < r)
    (spelled : toks.map (spell payload) = (.object, []) :: others) :
    parseString payload payloadLen stack =
      (stringLines payload payloadLen stack).map Line.report ++ [lit "\n"] := by
  obtain ⟨root, rest, rfl, object, _⟩ := List.map_eq_cons_iff.mp spelled
  have type : root.type = .object := congrArg Prod.fst object
  have fine : ¬(r < 1 ∨ (tokenArray (root :: rest) stack 0).type ≠ .object) := by
    rintro (few | other)
    · omega
    · exact other type
  rw [parseString, stringLines, parsed]
  simp only
  rw [if_neg fine, List.nil_append]
  rfl

theorem object_lines (o : FlatObject) (few : o.members.length ≤ 63) (payload : Ptr)
    (held : payload.image o.bytes.length = o.bytes) (stack : Nat → JsmnTok) :
    parseString payload o.bytes.length stack =
        (stringLines payload o.bytes.length stack).map Line.report ++ [lit "\n"] ∧
      ((stringLines payload o.bytes.length stack).filter isKeyLine = memberLines 1 o.members ↔
        ValuesUnnamed o.members ∧ KeysFit o.members) ∧
      (ValuesUnnamed o.members → (stringLines payload o.bytes.length stack).map Line.report =
        o.members.flatMap memberReports) := by
  obtain ⟨toks, parsed, spelled⟩ := jsmnParse_object o held
    (show 2 * o.members.length + 1 ≤ 128 by omega)
  have counted : 2 * o.members.length + 1 = toks.length := by
    obtain ⟨_, _, _, _, counted, _⟩ := jsmnParse_sound parsed
    exact counted
  have members : (toks.drop 1).map (spell payload) = o.members.flatMap memberSpelling := by
    rw [List.map_drop, spelled]
    rfl
  have whole := parseString_object stack parsed (Nat.succ_pos _) spelled
  refine ⟨whole, ?_⟩
  rw [stringLines, parsed]
  simp only [counted]
  exact ⟨loop_members payload toks stack o.members toks.length 1 (by omega) members,
    loop_reports payload toks stack o.members toks.length 1 (by omega) members⟩

theorem membersReported_iff (o : FlatObject) (few : o.members.length ≤ 63) (payload : Ptr)
    (held : payload.image o.bytes.length = o.bytes) (stack : Nat → JsmnTok) :
    MembersReported o payload stack ↔
      ValuesUnnamed o.members ∧ KeysFit o.members ∧ EndsKept o.members := by
  obtain ⟨whole, lines, reports⟩ := object_lines o few payload held stack
  constructor
  · rintro ⟨_, members, apart⟩
    obtain ⟨unnamed, fit⟩ := lines.mp members
    rw [reports unnamed] at apart
    exact ⟨unnamed, fit, (reports_apart fit).mp apart⟩
  · rintro ⟨unnamed, fit, kept⟩
    have apart := (reports_apart fit).mpr kept
    rw [← reports unnamed] at apart
    exact ⟨whole, lines.mpr ⟨unnamed, fit⟩, apart⟩

def compact (key : Plain) (value : Scalar) : Member := ⟨.none, key, .none, .none, value, .none⟩

def disguisedName : FlatObject :=
  ⟨.none, .none,
    [compact (.ofAll (lit "x") rfl) (.quoted (.ofAll (lit "ArmStatus") rfl)),
     compact (.ofAll (lit "y") rfl) (.quoted (.ofAll (lit "z") rfl))], .none⟩

theorem disguised_name_reported :
    ¬ ∀ (o : FlatObject), o.members.length ≤ 63 → ∀ payload : Ptr,
      payload.image o.bytes.length = o.bytes → ∀ stack, MembersReported o payload stack := by
  intro every
  have reported := (every disguisedName (by decide) (cstr disguisedName.bytes) (by decide)
    (fun _ => ⟨.undefined, 0, 0, 0⟩)).members
  revert reported
  decide

def armReport : FlatObject :=
  ⟨.space, .none,
    [compact (.ofAll (lit "x") rfl) (.quoted (.ofAll (lit "y") rfl)),
     compact (.ofAll (lit "ArmStatus") rfl) (.quoted (.ofAll (lit "RoverDirection") rfl))], .none⟩

theorem membersReported_arm : armReport.members.length ≤ 63 ∧
    MembersReported armReport (cstr armReport.bytes) (fun _ => ⟨.undefined, 0, 0, 0⟩) := by
  constructor
  · decide
  · apply (membersReported_iff armReport (by decide) (cstr armReport.bytes) (by decide) _).mpr
    refine ⟨?_, ?_, ?_⟩
    · unfold ValuesUnnamed
      decide
    · intro m member key known
      simp only [armReport, List.mem_cons, List.not_mem_nil, or_false] at member
      rcases member with rfl | rfl
      · have unknown : keyOf (.string, lit "x") = none := by decide
        cases unknown.symm.trans known
      · obtain rfl : "ArmStatus" = key := Option.some.inj (by rw [← known]; decide)
        decide
    · apply List.isChain_pair.mpr
      intro _ _ c last
      have short : (unexpectedText (lit "y"))[510]? = none := by decide
      cases short.symm.trans (Option.mem_def.mp last)

end RoverParseString
