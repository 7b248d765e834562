import FirefighterRover.Lib.CMemory
import FirefighterRover.Lib.EventRuns
import Mathlib.Data.List.DropRight

/-!
uart_term.c: the line editor on UART1 and what it does on a terminal, and TrimSpace. The bytes
UART_readPolling returns are a list; a read behind its end waits. Lines are shorter than 2^31
bytes, so iLen does not overflow.
-/
namespace RoverTerm
open CMemory EventRuns

def isLineEnd (c : UInt8) : Bool := c = chr '\r' ∨ c = chr '\n'

def backspace : UInt8 := 8
def bell : UInt8 := 7

structure Cmd where
  pcBuffer : Ptr
  iLen : Nat
  sent : List UInt8

def Cmd.writePolling (cmd : Cmd) (c : UInt8) : Cmd := { cmd with sent := cmd.sent ++ [c] }

def getCmdChar (cmd : Cmd) (cChar : UInt8) : Cmd :=
  if cChar = backspace then
    let cmd := (cmd.writePolling cChar).writePolling (chr ' ')
    if cmd.iLen ≠ 0 then
      let cmd := cmd.writePolling cChar
      { cmd with iLen := cmd.iLen - 1 }
    else cmd.writePolling bell
  else
    let cmd := cmd.writePolling cChar
    { cmd with pcBuffer := cmd.pcBuffer.store cmd.iLen cChar, iLen := cmd.iLen + 1 }

def getCmdLoop (uiBufLen : Nat) (input : List UInt8) (cChar : UInt8) (cmd : Cmd) :
    Option (Int × Cmd × List UInt8) :=
  if cmd.iLen ≥ uiBufLen then some (-1, cmd, input)
  else if isLineEnd cChar then
    let cmd := cmd.writePolling cChar
    some (cmd.iLen, { cmd with pcBuffer := cmd.pcBuffer.store cmd.iLen 0 }, input)
  else
    match input with
    | [] => none
    | next :: input => getCmdLoop uiBufLen input next (getCmdChar cmd cChar)

def getCmd (pcBuffer : Ptr) (uiBufLen : Nat) : List UInt8 → Option (Int × Cmd × List UInt8)
  | [] => none
  | cChar :: input => getCmdLoop uiBufLen input cChar ⟨pcBuffer, 0, []⟩

def edit (line : List UInt8) (c : UInt8) : List UInt8 :=
  if c = backspace then line.dropLast else line ++ [c]

def typed (keys : List UInt8) : List UInt8 := run edit [] keys

structure Holds (pcBuffer : Ptr) (uiBufLen : Nat) (line : List UInt8) (cmd : Cmd) : Prop where
  len : cmd.iLen = line.length
  text : cmd.pcBuffer.image line.length = line
  outside : ∀ i, uiBufLen ≤ i → cmd.pcBuffer i = pcBuffer i

theorem edit_length (line : List UInt8) (c : UInt8) : (edit line c).length ≤ line.length + 1 := by
  unfold edit
  split
  · rw [List.length_dropLast]
    omega
  · rw [List.length_append, List.length_singleton]

theorem getCmdChar_len {line : List UInt8} {cmd : Cmd} (len : cmd.iLen = line.length) (c : UInt8) :
    (getCmdChar cmd c).iLen = (edit line c).length := by
  unfold getCmdChar edit
  by_cases key : c = backspace
  · rw [if_pos key, if_pos key, List.length_dropLast, ← len]
    by_cases empty : cmd.iLen = 0 <;> simp [Cmd.writePolling, empty]
  · rw [if_neg key, if_neg key, List.length_append, List.length_singleton, ← len]
    rfl

theorem getCmdChar_holds {pcBuffer : Ptr} {uiBufLen : Nat} {line : List UInt8} {cmd : Cmd}
    (holds : Holds pcBuffer uiBufLen line cmd) (room : line.length < uiBufLen) (c : UInt8) :
    Holds pcBuffer uiBufLen (edit line c) (getCmdChar cmd c) := by
  have len := getCmdChar_len holds.len c
  refine ⟨len, ?_, ?_⟩
  · unfold getCmdChar edit
    by_cases key : c = backspace
    · rw [if_pos key, if_pos key]
      have shorter : cmd.pcBuffer.image line.dropLast.length = line.dropLast := by
        apply image_of_starts
        rw [holds.text]
        exact List.dropLast_prefix line
      dsimp only [Cmd.writePolling]
      split <;> exact shorter
    · have grown : (line ++ [c]).length = line.length + 1 := by simp
      rw [if_neg key, if_neg key, grown]
      dsimp only [Cmd.writePolling]
      rw [holds.len, image_store_end, holds.text]
  · intro i behind
    unfold getCmdChar
    have kept := holds.outside i behind
    by_cases key : c = backspace
    · rw [if_pos key]
      dsimp only [Cmd.writePolling]
      split <;> exact kept
    · have before := holds.len
      have apart : i ≠ cmd.iLen := by omega
      rw [if_neg key]
      exact (store_other _ _ apart).trans kept

/-- How a call of GetCmd ends, when `line` has been typed, `sent` echoed and `c` read. -/
inductive Ends (pcBuffer : Ptr) (uiBufLen : Nat) (line sent : List UInt8) (c : UInt8) :
    Int → Cmd → Prop where
  | full {cmd : Cmd} : line.length = uiBufLen → Holds pcBuffer uiBufLen line cmd →
      cmd.sent = sent → Ends pcBuffer uiBufLen line sent c (-1) cmd
  | line {cmd : Cmd} : isLineEnd c = true → line.length < uiBufLen → cmd.iLen = line.length →
      cmd.pcBuffer.image (line.length + 1) = line ++ [0] →
      (∀ i, uiBufLen ≤ i → cmd.pcBuffer i = pcBuffer i) → cmd.sent = sent ++ [c] →
      Ends pcBuffer uiBufLen line sent c line.length cmd

/-- The keys before the last one read: none of them ends the line, and it has not filled the
    buffer before the last of them. -/
structure Editing (uiBufLen : Nat) (start keys : List UInt8) : Prop where
  goes_on : ∀ c ∈ keys, isLineEnd c = false
  fits : ∀ p, p <+: keys → p ≠ keys → (run edit start p).length < uiBufLen

theorem editing_nil (uiBufLen : Nat) (start : List UInt8) : Editing uiBufLen start [] := by
  constructor
  · intro c member
    cases member
  · intro p before other
    exact absurd (List.prefix_nil.mp before) other

theorem editing_cons {uiBufLen : Nat} {start keys : List UInt8} {c : UInt8}
    (goes_on : isLineEnd c = false) (room : start.length < uiBufLen)
    (editing : Editing uiBufLen (edit start c) keys) : Editing uiBufLen start (c :: keys) := by
  constructor
  · intro x member
    rcases List.mem_cons.mp member with rfl | later
    · exact goes_on
    · exact editing.goes_on x later
  · intro p before other
    cases p with
    | nil => exact room
    | cons d p =>
      obtain ⟨rfl, rest⟩ := List.cons_prefix_cons.mp before
      exact editing.fits p rest fun same => other (by rw [same])

theorem getCmdLoop_leaves {pcBuffer : Ptr} {uiBufLen : Nat} {start : List UInt8} {cmd : Cmd}
    (short : start.length ≤ uiBufLen) (holds : Holds pcBuffer uiBufLen start cmd) {cChar : UInt8}
    (leaves : start.length = uiBufLen ∨ isLineEnd cChar = true) (input : List UInt8) :
    ∃ ret done, getCmdLoop uiBufLen input cChar cmd = some (ret, done, input) ∧
      Ends pcBuffer uiBufLen start cmd.sent cChar ret done := by
  have len := holds.len
  unfold getCmdLoop
  by_cases full : cmd.iLen ≥ uiBufLen
  · rw [if_pos full]
    exact ⟨_, _, rfl, .full (by omega) holds rfl⟩
  · have ended : isLineEnd cChar = true := leaves.resolve_left (by omega)
    rw [if_neg full, if_pos ended]
    refine ⟨_, _, rfl, ?_⟩
    dsimp only [Cmd.writePolling]
    rw [len]
    refine .line ended (by omega) rfl ?_ ?_ rfl
    · dsimp only
      rw [image_store_end, holds.text]
    · intro i behind
      exact (store_other _ _ (by omega)).trans (holds.outside i behind)

theorem getCmdLoop_spec {pcBuffer : Ptr} {uiBufLen : Nat} (input : List UInt8) :
    ∀ {cChar : UInt8} {cmd : Cmd} {start : List UInt8}, start.length ≤ uiBufLen →
    Holds pcBuffer uiBufLen start cmd →
    match getCmdLoop uiBufLen input cChar cmd with
    | none => Editing uiBufLen start (cChar :: input)
    | some (ret, done, rest) => ∃ keys c, cChar :: input = keys ++ c :: rest ∧
        Editing uiBufLen start keys ∧ Ends pcBuffer uiBufLen (run edit start keys)
          (run getCmdChar cmd keys).sent c ret done := by
  induction input with
  | nil =>
    intro cChar cmd start short holds
    by_cases leaves : start.length = uiBufLen ∨ isLineEnd cChar = true
    · obtain ⟨ret, done, left, ends⟩ := getCmdLoop_leaves short holds leaves []
      rw [left]
      exact ⟨[], cChar, rfl, editing_nil _ _, ends⟩
    · obtain ⟨room, goes_on⟩ := not_or.mp leaves
      have len := holds.len
      rw [getCmdLoop, if_neg (by omega), if_neg goes_on]
      exact editing_cons (by simpa using goes_on) (by omega) (editing_nil _ _)
  | cons next input ih =>
    intro cChar cmd start short holds
    by_cases leaves : start.length = uiBufLen ∨ isLineEnd cChar = true
    · obtain ⟨ret, done, left, ends⟩ := getCmdLoop_leaves short holds leaves (next :: input)
      rw [left]
      exact ⟨[], cChar, rfl, editing_nil _ _, ends⟩
    · obtain ⟨other, goes_on⟩ := not_or.mp leaves
      have goes_on : isLineEnd cChar = false := by simpa using goes_on
      have room : start.length < uiBufLen := by omega
      have len := holds.len
      have one := edit_length start cChar
      have later := @ih next (getCmdChar cmd cChar) (edit start cChar) (by omega)
        (getCmdChar_holds holds room cChar)
      rw [getCmdLoop, if_neg (by omega), if_neg (by simp [goes_on])]
      generalize getCmdLoop uiBufLen input next (getCmdChar cmd cChar) = result at later ⊢
      cases result with
      | none => exact editing_cons goes_on room later
      | some result =>
        obtain ⟨keys, c, split, editing, ends⟩ := later
        exact ⟨cChar :: keys, c, by rw [split]; rfl, editing_cons goes_on room editing, ends⟩

def echo (pcBuffer : Ptr) (keys : List UInt8) : List UInt8 :=
  (run getCmdChar ⟨pcBuffer, 0, []⟩ keys).sent

theorem getCmd_ends (pcBuffer : Ptr) (uiBufLen : Nat) (input : List UInt8) :
    match getCmd pcBuffer uiBufLen input with
    | none => Editing uiBufLen [] input
    | some (ret, done, rest) => ∃ keys c, input = keys ++ c :: rest ∧
        Editing uiBufLen [] keys ∧
        Ends pcBuffer uiBufLen (typed keys) (echo pcBuffer keys) c ret done := by
  cases input with
  | nil => exact editing_nil _ _
  | cons c input =>
    have empty : Holds pcBuffer uiBufLen [] ⟨pcBuffer, 0, []⟩ := ⟨rfl, rfl, fun _ _ => rfl⟩
    exact getCmdLoop_spec input (Nat.zero_le _) empty

structure Screen where
  cells : List UInt8
  cursor : Nat
  deriving DecidableEq, Repr

/-- A terminal that gets a character: backspace moves the cursor only, the bell rings, and a
    printing character takes the place under the cursor. -/
def Screen.draw (screen : Screen) (c : UInt8) : Screen :=
  if c = backspace then { screen with cursor := screen.cursor - 1 }
  else if c = bell then screen
  else ⟨screen.cells.take screen.cursor ++ c :: screen.cells.drop (screen.cursor + 1),
    screen.cursor + 1⟩

/-- Behind the prompt stands the line, then blanks, and the cursor behind the line. Of the prompt
    itself the last cell may be lost. -/
structure Shows (prompt line : List UInt8) (screen : Screen) : Prop where
  cursor : screen.cursor = prompt.length + line.length
  cells : ∃ left blanks, screen.cells = left ++ line ++ List.replicate blanks (chr ' ') ∧
    left.length = prompt.length ∧ left.dropLast = prompt.dropLast

def isPrintable (c : UInt8) : Bool := 32 ≤ c ∧ c < 127

theorem draw_printing {c : UInt8} (visible : c ≠ backspace ∧ c ≠ bell) (a b : List UInt8) :
    (Screen.mk (a ++ b) a.length).draw c = ⟨a ++ c :: b.drop 1, a.length + 1⟩ := by
  simp [Screen.draw, visible.1, visible.2, List.drop_append]

theorem draw_erases (a b : List UInt8) (last : UInt8) :
    ((Screen.mk (a ++ last :: b) (a.length + 1)).draw backspace).draw (chr ' ') =
      ⟨a ++ chr ' ' :: b, a.length + 1⟩ := by
  have back : (Screen.mk (a ++ last :: b) (a.length + 1)).draw backspace =
      ⟨a ++ last :: b, a.length⟩ := rfl
  have visible : chr ' ' ≠ backspace ∧ chr ' ' ≠ bell := by decide
  rw [back, draw_printing visible]
  rfl

theorem getCmdChar_shows {prompt line : List UInt8} {screen : Screen} {cmd : Cmd} {c : UInt8}
    (prompted : prompt ≠ []) (shows_ : Shows prompt line screen) (len : cmd.iLen = line.length)
    (key : isPrintable c = true ∨ c = backspace) :
    ∃ echoed, (getCmdChar cmd c).sent = cmd.sent ++ echoed ∧
      Shows prompt (edit line c) (run Screen.draw screen echoed) := by
  obtain ⟨cursor, left, blanks, cells, size, kept⟩ := shows_
  obtain ⟨_, at_⟩ := screen
  dsimp only at cursor cells
  subst cursor cells
  have blank : chr ' ' :: List.replicate blanks (chr ' ') = List.replicate (blanks + 1) (chr ' ') :=
    rfl
  by_cases erase : c = backspace
  · subst erase
    rcases List.eq_nil_or_concat' line with rfl | ⟨short, last, rfl⟩
    · -- the blank goes over the last cell of the prompt
      have start : cmd.iLen = 0 := len
      rcases List.eq_nil_or_concat' left with rfl | ⟨rest, cell, rfl⟩
      · exact absurd (List.length_eq_zero_iff.mp size.symm) prompted
      have column : prompt.length + ([] : List UInt8).length = rest.length + 1 := by
        rw [← size]
        simp
      have shape : rest ++ [cell] ++ [] ++ List.replicate blanks (chr ' ') =
          rest ++ cell :: List.replicate blanks (chr ' ') := by simp
      refine ⟨[backspace, chr ' ', bell], ?_, ?_, rest ++ [chr ' '], blanks, ?_, ?_, ?_⟩
      · simp [getCmdChar, Cmd.writePolling, start]
      · rw [run_cons, run_cons, column, shape, draw_erases]
        exact column.symm
      · rw [run_cons, run_cons, column, shape, draw_erases]
        have shown : rest ++ [chr ' '] ++ [] ++ List.replicate blanks (chr ' ') =
            rest ++ chr ' ' :: List.replicate blanks (chr ' ') := by simp
        exact shown.symm
      · rw [← size]
        simp
      · rw [← kept]
        simp
    · have some_typed : cmd.iLen ≠ 0 := by
        rw [len]
        simp
      have column : prompt.length + (short ++ [last]).length = (left ++ short).length + 1 := by
        rw [List.length_append, List.length_append, size]
        rfl
      have shape : left ++ (short ++ [last]) ++ List.replicate blanks (chr ' ') =
          (left ++ short) ++ last :: List.replicate blanks (chr ' ') := by simp
      have shorter : edit (short ++ [last]) backspace = short := by simp [edit]
      rw [shorter]
      refine ⟨[backspace, chr ' ', backspace], ?_, ?_, left, blanks + 1, ?_, size, kept⟩
      · simp [getCmdChar, Cmd.writePolling, some_typed]
      · rw [run_cons, run_cons, column, shape, draw_erases]
        exact List.length_append.trans (by rw [size])
      · rw [run_cons, run_cons, column, shape, draw_erases, blank]
        rfl
  · have visible : c ≠ backspace ∧ c ≠ bell := by
      refine ⟨erase, ?_⟩
      rintro rfl
      rcases key with printable | same
      · exact absurd printable (by decide)
      · exact absurd same (by decide)
    have column : prompt.length + line.length = (left ++ line).length := by
      rw [List.length_append, size]
    have longer : edit line c = line ++ [c] := if_neg erase
    rw [longer]
    refine ⟨[c], ?_, ?_, left, blanks - 1, ?_, size, kept⟩
    · unfold getCmdChar
      rw [if_neg erase]
      rfl
    · rw [run_cons, run_nil, column, draw_printing visible]
      simp only [List.length_append, List.length_singleton]
      omega
    · rw [run_cons, run_nil, column, draw_printing visible, List.drop_replicate]
      simp

theorem echo_shows {prompt : List UInt8} (prompted : prompt ≠ []) (pcBuffer : Ptr)
    {keys : List UInt8} (plain : ∀ c ∈ keys, isPrintable c = true ∨ c = backspace) :
    (run getCmdChar ⟨pcBuffer, 0, []⟩ keys).iLen = (typed keys).length ∧
      Shows prompt (typed keys) (run Screen.draw ⟨prompt, prompt.length⟩ (echo pcBuffer keys)) := by
  unfold echo typed
  induction keys using List.reverseRecOn with
  | nil => exact ⟨rfl, rfl, prompt, 0, by simp, rfl, rfl⟩
  | append_singleton keys c ih =>
    obtain ⟨len, shown⟩ := ih fun k member => plain k (by simp [member])
    obtain ⟨echoed, sent, next⟩ := getCmdChar_shows prompted shown len (plain c (by simp))
    rw [run_concat, run_concat, sent, run_append]
    exact ⟨getCmdChar_len len c, next⟩

def Plain (keys : List UInt8) : Prop := ∀ c ∈ keys, isPrintable c = true ∨ c = backspace

theorem ends_not_editing {pcBuffer : Ptr} {uiBufLen : Nat} {keys rest sent : List UInt8} {c : UInt8}
    {ret : Int} {done : Cmd} (ends : Ends pcBuffer uiBufLen (typed keys) sent c ret done) :
    ¬ Editing uiBufLen [] (keys ++ c :: rest) := by
  intro editing
  cases ends with
  | full full =>
    have room := editing.fits keys (List.prefix_append keys _) (by simp)
    rw [typed] at full
    omega
  | line ended =>
    have goes_on := editing.goes_on c (by simp)
    rw [ended] at goes_on
    cases goes_on

/-- GetCmd waits for the next key while no line end has come and the line was not full before the
    last key. The key it returns at is one behind a full line, and then the result is -1, or
    the line end behind a shorter one, which then is in the buffer with its terminator. -/
theorem getCmd_line (pcBuffer : Ptr) (uiBufLen : Nat) (input : List UInt8) :
    (getCmd pcBuffer uiBufLen input = none ↔ Editing uiBufLen [] input) ∧
    ∀ ret done rest, getCmd pcBuffer uiBufLen input = some (ret, done, rest) →
      ∃ keys c, input = keys ++ c :: rest ∧ Editing uiBufLen [] keys ∧
        Ends pcBuffer uiBufLen (typed keys) (echo pcBuffer keys) c ret done ∧
        ∀ prompt, prompt ≠ [] → Plain keys → Shows prompt (typed keys)
          (run Screen.draw ⟨prompt, prompt.length⟩ (echo pcBuffer keys)) := by
  have ends := getCmd_ends pcBuffer uiBufLen input
  cases returned : getCmd pcBuffer uiBufLen input with
  | none =>
    rw [returned] at ends
    exact ⟨iff_of_true rfl ends, fun _ _ _ other => by cases other⟩
  | some result =>
    rw [returned] at ends
    obtain ⟨keys, c, read, editing, left⟩ := ends
    constructor
    · rw [read]
      exact iff_of_false (by simp) (ends_not_editing left)
    · intro ret done rest same
      cases same
      exact ⟨keys, c, read, editing, left, fun prompt prompted plain =>
        (echo_shows prompted pcBuffer plain).2⟩

def isSpace (c : UInt8) : Bool := c = 32

def strlen (p : Ptr) (n : Nat) : Nat := (strn p n).length

def memmove (p : Ptr) (src n : Nat) : Ptr := fun i => if i < n then p (src + i) else p i

def trimEnd (strData : Ptr) : Nat → Nat
  | 0 => 0
  | n + 1 => if isSpace (strData n) then trimEnd strData n else n + 1

def skipSpaces (pcInput : Ptr) : Nat → Nat → Nat
  | 0, i => i
  | fuel + 1, i =>
    if pcInput i ≠ 0 ∧ isSpace (pcInput i) then skipSpaces pcInput fuel (i + 1) else i

/-- TrimSpace on memory whose string ends within `n` bytes. The variable `index` of the source
    is never read. -/
def trimSpace (n : Nat) (pcInput : Ptr) : Int × Ptr :=
  let size := strlen pcInput n
  if size = 0 then (0, pcInput)
  else
    let pcInput := pcInput.store (trimEnd pcInput size) 0
    let strData := skipSpaces pcInput size 0
    let pcInput := memmove pcInput strData (strlen (pcInput.add strData) n + 1)
    (strlen pcInput n, pcInput)

def HoldsText (p : Ptr) (text : List UInt8) : Prop := ∀ i, i ≤ text.length → p i = cstr text i

def trimmed (text : List UInt8) : List UInt8 := (text.rdropWhile isSpace).dropWhile isSpace

theorem holdsText_strlen {p : Ptr} {text : List UInt8} {n : Nat} (holds : HoldsText p text)
    (clean : ∀ c ∈ text, c ≠ 0) (room : text.length < n) : strlen p n = text.length := by
  rw [strlen, strn_text text p n room clean holds]

theorem cstr_append (a b : List UInt8) (i : Nat) : cstr (a ++ b) (a.length + i) = cstr b i := by
  rw [cstr, cstr, List.getD_eq_getElem?_getD, List.getD_eq_getElem?_getD,
    List.getElem?_append_right (Nat.le_add_right _ _), Nat.add_sub_cancel_left]

theorem cstr_left {a : List UInt8} (b : List UInt8) {i : Nat} (inside : i < a.length) :
    cstr (a ++ b) i = cstr a i := by
  simp [cstr, List.getElem?_append_left inside]

theorem holdsText_cut {p : Ptr} {kept rest : List UInt8} (holds : HoldsText p (kept ++ rest)) :
    HoldsText (p.store kept.length 0) kept := by
  intro i bound
  by_cases last : i = kept.length
  · subst last
    simp [Ptr.store, cstr]
  · have inside : i < kept.length := by omega
    have before := holds i (by rw [List.length_append]; omega)
    rw [store_other _ _ last, before, cstr_left rest inside]

theorem holdsText_drop {p : Ptr} (skipped : List UInt8) {rest : List UInt8}
    (holds : HoldsText p (skipped ++ rest)) : HoldsText (p.add skipped.length) rest := by
  intro i bound
  have there := holds (skipped.length + i) (by rw [List.length_append]; omega)
  rw [cstr_append] at there
  exact there

theorem holdsText_move {p : Ptr} {rest : List UInt8} {src : Nat} (holds : HoldsText (p.add src) rest) :
    HoldsText (memmove p src (rest.length + 1)) rest := by
  intro i bound
  have inside : i < rest.length + 1 := by omega
  rw [memmove, if_pos inside]
  exact holds i bound

theorem trimEnd_kept {p : Ptr} : ∀ {text : List UInt8}, (∀ i, i < text.length → p i = cstr text i) →
    trimEnd p text.length = (text.rdropWhile isSpace).length := by
  intro text
  induction text using List.reverseRecOn with
  | nil => intro _; rfl
  | append_singleton text c ih =>
    intro holds
    have last : p text.length = c := by
      have there := holds text.length (by simp)
      simpa [cstr] using there
    have before : ∀ i, i < text.length → p i = cstr text i := by
      intro i inside
      rw [holds i (by rw [List.length_append]; omega), cstr_left [c] inside]
    rw [List.length_append, List.length_singleton, trimEnd, last, List.rdropWhile_concat]
    split
    · exact ih before
    · simp

theorem skipSpaces_skips {p : Ptr} {text : List UInt8} (clean : ∀ c ∈ text, c ≠ 0) :
    ∀ {fuel off : Nat}, HoldsText (p.add off) text → text.length ≤ fuel →
    skipSpaces p fuel off = off + (text.takeWhile isSpace).length := by
  induction text with
  | nil =>
    intro fuel off holds _
    have stop : p off = 0 := holds 0 (Nat.le_refl _)
    cases fuel with
    | zero => rfl
    | succ fuel => rw [skipSpaces, if_neg fun h => h.1 stop]; rfl
  | cons c text ih =>
    intro fuel off holds enough
    obtain ⟨fuel, rfl⟩ : ∃ n, fuel = n + 1 :=
      ⟨fuel - 1, by simp only [List.length_cons] at enough; omega⟩
    have first : p off = c := holds 0 (Nat.zero_le _)
    have rest : HoldsText (p.add (off + 1)) text := by
      have dropped := holdsText_drop [c] holds
      intro i bound
      have there := dropped i bound
      simp only [Ptr.add, List.length_singleton] at there ⊢
      rw [← there]
      congr 1
      omega
    have nonzero : c ≠ 0 := clean c (by simp)
    rw [skipSpaces, first, List.takeWhile_cons]
    by_cases space : isSpace c = true
    · rw [if_pos ⟨nonzero, space⟩, if_pos space, List.length_cons,
        ih (fun x member => clean x (by simp [member])) rest
          (by simp only [List.length_cons] at enough; omega)]
      omega
    · rw [if_neg fun h => space h.2, if_neg space]
      rfl

theorem trimSpace_trims {p : Ptr} {text : List UInt8} {n : Nat} (clean : ∀ c ∈ text, c ≠ 0)
    (room : text.length < n) (holds : HoldsText p text) :
    (trimSpace n p).1 = (trimmed text).length ∧ HoldsText (trimSpace n p).2 (trimmed text) ∧
      ∀ i, text.length < i → (trimSpace n p).2 i = p i := by
  obtain ⟨kept, tail, whole, ends⟩ : ∃ kept tail, text = kept ++ tail ∧
      text.rdropWhile isSpace = kept :=
    ⟨_, _, List.rdropWhile_append_rtakeWhile.symm, rfl⟩
  obtain ⟨spaces, rest, split, starts, left⟩ : ∃ spaces rest, kept = spaces ++ rest ∧
      kept.takeWhile isSpace = spaces ∧ kept.dropWhile isSpace = rest :=
    ⟨_, _, List.takeWhile_append_dropWhile.symm, rfl, rfl⟩
  have out : trimmed text = rest := by rw [trimmed, ends, left]
  have lengths : rest.length ≤ kept.length ∧ kept.length ≤ text.length := by
    rw [whole, List.length_append, split, List.length_append]
    omega
  have cleanKept : ∀ c ∈ kept, c ≠ 0 := fun c member =>
    clean c (by rw [whole]; exact List.mem_append_left _ member)
  have cleanRest : ∀ c ∈ rest, c ≠ 0 := fun c member =>
    cleanKept c (by rw [split]; exact List.mem_append_right _ member)
  have size : strlen p n = text.length := holdsText_strlen holds clean room
  have ended : trimEnd p text.length = kept.length := by
    rw [trimEnd_kept fun i inside => holds i (Nat.le_of_lt inside), ends]
  have cut : HoldsText (p.store kept.length 0) kept := by
    rw [whole] at holds
    exact holdsText_cut holds
  have skips : skipSpaces (p.store kept.length 0) text.length 0 = spaces.length := by
    have start : HoldsText ((p.store kept.length 0).add 0) kept := by
      intro i bound
      rw [← cut i bound, Ptr.add, Nat.zero_add]
    rw [skipSpaces_skips cleanKept start lengths.2, starts, Nat.zero_add]
  have there : HoldsText ((p.store kept.length 0).add spaces.length) rest := by
    rw [split] at cut
    rw [split]
    exact holdsText_drop spaces cut
  have moved := holdsText_move there
  by_cases empty : text.length = 0
  · have nothing : rest = [] := List.length_eq_zero_iff.mp (by omega)
    rw [trimSpace, size, if_pos empty, out, nothing]
    refine ⟨rfl, ?_, fun _ _ => rfl⟩
    intro i bound
    have first : i = 0 := Nat.le_zero.mp bound
    have stop := holds 0 (Nat.zero_le _)
    rw [List.length_eq_zero_iff.mp empty] at stop
    rw [first]
    exact stop
  · have fits : rest.length < n := by omega
    have shorter := holdsText_strlen there cleanRest fits
    have result := holdsText_strlen moved cleanRest fits
    rw [trimSpace, size, if_neg empty]
    simp only [ended, skips, shorter, result, out]
    refine ⟨trivial, moved, ?_⟩
    intro i behind
    have far : ¬ i < rest.length + 1 := by omega
    have apart : i ≠ kept.length := by omega
    rw [memmove, if_neg far, store_other _ _ apart]

theorem trimSpace_trims_padded :
    (trimSpace 9 (cstr (lit "  a b   "))).1 = 3 := by
  have trims := trimSpace_trims (n := 9) (clean_of_all (by decide :
    ((lit "  a b   ").all fun c => c != 0) = true)) (by decide) fun _ _ => rfl
  exact trims.1

end RoverTerm
