import FirefighterRover.MqttClient
import FirefighterRover.ParseString

/-!
The status and statistics texts and what comes back from them: the tokens jsmn_parse makes
of the texts the rover writes, and what its own parse_string reports.
-/
namespace RoverStatusJson
open CMemory Numerals RoverJsmn RoverJson RoverFlat RoverParseString RoverMqttClient FlatJson

/-- The five tokens of an object with two members, by the bytes of their keys and values. -/
def ReadsAs (text key value other otherValue : List UInt8) : Prop :=
  ∀ js : Ptr, js.image text.length = text → ∀ numTokens, 5 ≤ numTokens →
    ∃ t0 t1 t2 t3 t4, jsmnParse js text.length numTokens = .ok (5, [t0, t1, t2, t3, t4]) ∧
      t0.type = .object ∧ t1.type = .string ∧ t3.type = .string ∧ tokenBytes js t1 = key ∧
      tokenBytes js t2 = value ∧ tokenBytes js t3 = other ∧ tokenBytes js t4 = otherValue

theorem object_readsAs {o : FlatObject} {m n : Member} (members : o.members = [m, n]) :
    ReadsAs o.bytes m.key.text m.value.text n.key.text n.value.text := by
  intro js held numTokens room
  have fits : 2 * o.members.length + 1 ≤ numTokens := by
    rw [members]
    exact room
  obtain ⟨toks, parsed, spelled⟩ := jsmnParse_object o held fits
  rw [members] at parsed spelled
  obtain ⟨t0, rest, rfl, object, spelled⟩ := List.map_eq_cons_iff.mp spelled
  obtain ⟨t1, rest, rfl, key, spelled⟩ := List.map_eq_cons_iff.mp spelled
  obtain ⟨t2, rest, rfl, value, spelled⟩ := List.map_eq_cons_iff.mp spelled
  obtain ⟨t3, rest, rfl, other, spelled⟩ := List.map_eq_cons_iff.mp spelled
  obtain ⟨t4, rest, rfl, otherValue, spelled⟩ := List.map_eq_cons_iff.mp spelled
  obtain rfl := List.map_eq_nil_iff.mp spelled
  obtain ⟨string, keyBytes⟩ := spell_scalar key (Or.inl rfl)
  obtain ⟨string', otherBytes⟩ := spell_scalar other (Or.inl rfl)
  exact ⟨t0, t1, t2, t3, t4, parsed, congrArg Prod.fst object, string, string', keyBytes,
    scalarSpelling_bytes value, otherBytes, scalarSpelling_bytes otherValue⟩

/-- What the format GEN_STATUS says before it is cut to the buffer. -/
def genStatus (roverDir : List UInt8) (speed : Int) : List UInt8 :=
  lit "\x7b\"RoverDirection\": \"" ++ roverDir ++ lit "\", \"Speed\": " ++ decimal speed ++
    lit "\x7d"

theorem roverDirection_plain : (lit "RoverDirection").all isPlain = true := rfl

def directionMember (roverDir : Plain) : Member :=
  ⟨.none, .ofAll (lit "RoverDirection") roverDirection_plain, .none, .space, .quoted roverDir,
    .none⟩

def speedMember (speed : Int) : Member :=
  ⟨.space, .ofAll (lit "Speed") rfl, .none, .space, .bare (.ofInt speed), .none⟩

def genObject (roverDir : Plain) (speed : Int) : FlatObject :=
  ⟨.none, .none, [directionMember roverDir, speedMember speed], .none⟩

theorem genObject_bytes (roverDir : Plain) (speed : Int) :
    (genObject roverDir speed).bytes = genStatus roverDir.text speed := by
  simp only [genStatus, List.append_assoc]
  simp only [FlatObject.bytes, genObject, membersBytes, Member.bytes, directionMember,
    speedMember, Scalar.bytes, quote, Blank.none, Blank.space, Blank.ofAll, Plain.ofAll,
    Bare.ofInt, List.nil_append, List.append_nil, List.cons_append, List.append_assoc]
  rfl

theorem createGenStatus_text {d : List UInt8} (short : d.length ≤ 14) (clean : ∀ c ∈ d, c ≠ 0)
    {roverDir : Ptr} (stored : ∀ i, i ≤ d.length → roverDir i = d.getD i 0) {speed : Int}
    (fits : IsInt32 speed) :
    createGenStatusJson roverDir speed = genStatus d speed ∧ (genStatus d speed).length < 256 := by
  have room : (genStatus d speed).length < 256 := by
    have digits := decimal_length fits
    have sizes : (lit "\x7b\"RoverDirection\": \"").length = 20 ∧
        (lit "\", \"Speed\": ").length = 12 ∧ (lit "\x7d").length = 1 := by
      decide
    obtain ⟨first, second, third⟩ := sizes
    simp only [genStatus, List.length_append, first, second, third]
    omega
  constructor
  · rw [createGenStatusJson, strn_text d roverDir 256 (by omega) clean stored]
    exact List.take_of_length_le (Nat.le_of_lt_succ room)
  · exact room

structure GenStatusDecodes (d : List UInt8) (speed : Int) (text : List UInt8) : Prop where
  whole : text = genStatus d speed ∧ text.length < 256
  tokens : ReadsAs text (lit "RoverDirection") d (lit "Speed") (decimal speed)
  report : ∀ js : Ptr, js.image text.length = text → ∀ stack,
    (parseString js text.length stack).filter isKeyReport =
      [lit "- RoverDirection: " ++ d ++ lit "\n"]

theorem genStatus_decodes {d : List UInt8} (short : d.length ≤ 14)
    (plain : ∀ c ∈ d, c ≠ chr '\"' ∧ c ≠ chr '\\' ∧ c ≠ 0) {roverDir : Ptr}
    (stored : ∀ i, i ≤ d.length → roverDir i = d.getD i 0) {speed : Int} (fits : IsInt32 speed) :
    GenStatusDecodes d speed (createGenStatusJson roverDir speed) := by
  have clean : ∀ c ∈ d, c ≠ 0 := fun c member => (plain c member).2.2
  obtain ⟨written, room⟩ := createGenStatus_text short clean stored fits
  have bytes : ∀ c ∈ d, isPlain c = true := by
    intro c member
    obtain ⟨quote, escape, nul⟩ := plain c member
    simp [isPlain, quote, escape, nul]
  have encoded : genStatus d speed = (genObject ⟨d, bytes⟩ speed).bytes :=
    (genObject_bytes ⟨d, bytes⟩ speed).symm
  rw [written]
  constructor
  · exact ⟨rfl, room⟩
  · rw [encoded]
    exact object_readsAs (o := genObject ⟨d, bytes⟩ speed) rfl
  · intro js held stack
    rw [encoded] at held ⊢
    have few : (genObject ⟨d, bytes⟩ speed).members.length ≤ 63 := by
      change 2 ≤ 63
      omega
    have known : keyOf (.string, lit "RoverDirection") ≠ none := by decide
    obtain ⟨whole, lines, _⟩ := object_lines (genObject ⟨d, bytes⟩ speed) few js held stack
    have unnamed : ValuesUnnamed (genObject ⟨d, bytes⟩ speed).members := by
      intro m member
      simp only [genObject, List.mem_cons, List.not_mem_nil, or_false] at member
      rcases member with rfl | rfl
      · intro unknown
        exact absurd unknown known
      · intro _
        simp [keyOf, knownKeys, speedMember, scalarSpelling]
    have fit : KeysFit (genObject ⟨d, bytes⟩ speed).members := by
      intro m member key named
      simp only [genObject, List.mem_cons, List.not_mem_nil, or_false] at member
      rcases member with rfl | rfl
      · have own : keyOf (.string, lit "RoverDirection") = some "RoverDirection" := by decide
        cases own.symm.trans named
        have frame : (lit "- RoverDirection: ").length = 18 ∧ (lit "\n").length = 1 := by decide
        have name : lit "- " ++ lit "RoverDirection" ++ lit ": " = lit "- RoverDirection: " := rfl
        rw [keyText, name, List.length_append, List.length_append, frame.1, frame.2]
        exact Nat.le_trans (Nat.add_le_add_right (Nat.add_le_add_left short 18) 1) (by decide)
      · have unknown : keyOf (.string, lit "Speed") = none := by decide
        cases unknown.symm.trans named
    have lines := lines.mpr ⟨unnamed, fit⟩
    rw [whole, List.filter_append, List.filter_map]
    have reports : (stringLines js (genObject ⟨d, bytes⟩ speed).bytes.length stack).filter
        (isKeyReport ∘ Line.report) = memberLines 1 (genObject ⟨d, bytes⟩ speed).members := lines
    rw [reports]
    rfl

theorem genStatus_decodes_armStatus : GenStatusDecodes (lit "ArmStatus") (-2 ^ 31)
    (createGenStatusJson (cstr (lit "ArmStatus")) (-2 ^ 31)) := by
  have plain : ∀ c ∈ lit "ArmStatus", c ≠ chr '\"' ∧ c ≠ chr '\\' ∧ c ≠ 0 := by
    have all : (lit "ArmStatus").all (fun c => c ≠ chr '\"' ∧ c ≠ chr '\\' ∧ c ≠ 0) = true := by
      decide
    simpa using all
  exact genStatus_decodes (by decide) plain (fun _ _ => rfl) (by decide)

def statisticsText (publishAttempts publishSuccesses : Int) : List UInt8 :=
  lit "\x7b\"publishAttempts\":" ++ decimal publishAttempts ++
    lit ",\"publishSuccesses\":" ++ decimal publishSuccesses ++ lit "\x7d"

structure EncodesStatistics (a b : Int) (full text : List UInt8) : Prop where
  whole : text = full ∧ text.length < 256
  wellFormed : WellFormed text
  tokens : ReadsAs text (lit "publishAttempts") (decimal a) (lit "publishSuccesses") (decimal b)

def EncodersAgree (a b : Int) : Prop :=
  EncodesStatistics a b (stat a b) (createStatsJson a b) ∧
    EncodesStatistics a b (statisticsText a b) (statisticsPayload a b)

def attemptsKey : Plain := .ofAll (lit "publishAttempts") rfl

def successesKey : Plain := .ofAll (lit "publishSuccesses") rfl

def statisticsObject (a b : Int) : FlatObject :=
  ⟨.none, .none,
    [⟨.none, attemptsKey, .none, .none, .bare (.ofInt a), .none⟩,
     ⟨.none, successesKey, .none, .none, .bare (.ofInt b), .none⟩], .none⟩

theorem statisticsObject_bytes (a b : Int) :
    (statisticsObject a b).bytes = statisticsText a b := by
  simp only [statisticsText, List.append_assoc]
  simp only [FlatObject.bytes, statisticsObject, membersBytes, Member.bytes, attemptsKey,
    successesKey, Scalar.bytes, quote, Blank.none, Plain.ofAll, Bare.ofInt, List.nil_append,
    List.append_nil, List.cons_append, List.append_assoc]
  rfl

theorem key_strict (text : List UInt8) (plain : text.all isPlain = true)
    (high : text.all (fun c => 32 ≤ c) = true) : (Plain.ofAll text plain).Strict := by
  intro c member
  exact of_decide_eq_true (List.all_eq_true.mp high c member)

theorem statisticsPayload_encodes {a b : Int} (attempts : IsInt32 a) (successes : IsInt32 b) :
    EncodesStatistics a b (statisticsText a b) (statisticsPayload a b) := by
  have room : (statisticsText a b).length < 256 := by
    have digits := decimal_length attempts
    have digits' := decimal_length successes
    have sizes : (lit "\x7b\"publishAttempts\":").length = 19 ∧
        (lit ",\"publishSuccesses\":").length = 20 ∧ (lit "\x7d").length = 1 := by
      decide
    obtain ⟨first, second, third⟩ := sizes
    simp only [statisticsText, List.length_append, first, second, third]
    omega
  have written : statisticsPayload a b = statisticsText a b :=
    List.take_of_length_le (Nat.le_of_lt_succ room)
  rw [written]
  constructor
  · exact ⟨rfl, room⟩
  · refine ⟨statisticsObject a b, statisticsObject_bytes a b, ?_⟩
    intro m member
    simp only [statisticsObject, List.mem_cons, List.not_mem_nil, or_false] at member
    rcases member with rfl | rfl
    · exact ⟨key_strict (lit "publishAttempts") rfl (by decide),
        Or.inr (Or.inr (Or.inr (decimal_isNumber a)))⟩
    · exact ⟨key_strict (lit "publishSuccesses") rfl (by decide),
        Or.inr (Or.inr (Or.inr (decimal_isNumber b)))⟩
  · rw [← statisticsObject_bytes]
    exact object_readsAs (o := statisticsObject a b) rfl

/-- The value STAT closes without opening: the digits and a quote. -/
def unopened (b : Int) : Bare where
  text := decimal b ++ [chr '\"']
  nonempty := by simp
  bare := by
    intro c member
    rcases List.mem_append.mp member with member | member
    · exact (numeral_byte (decimal_bytes b c member)).2.2.1
    · rw [List.mem_singleton.mp member]
      rfl
  starts := by
    rw [List.head?_append_of_ne_nil _ (decimal_ne_nil b)]
    exact (Bare.ofInt b).starts

def statObject (a b : Int) : FlatObject :=
  ⟨.none, .none,
    [⟨.none, attemptsKey, .none, .space, .quoted (.ofInt a), .none⟩,
     ⟨.space, successesKey, .none, .space, .bare (unopened b), .none⟩], .none⟩

theorem statObject_bytes (a b : Int) : (statObject a b).bytes = stat a b := by
  simp only [stat, List.append_assoc]
  simp only [FlatObject.bytes, statObject, membersBytes, Member.bytes, attemptsKey,
    successesKey, Scalar.bytes, quote, Blank.none, Blank.space, Blank.ofAll, Plain.ofAll,
    Plain.ofInt, unopened, List.nil_append, List.append_nil, List.cons_append, List.append_assoc]
  rfl

theorem stat_readsAs (a b : Int) : ReadsAs (stat a b) (lit "publishAttempts") (decimal a)
    (lit "publishSuccesses") (decimal b ++ [chr '\"']) := by
  rw [← statObject_bytes]
  exact object_readsAs (o := statObject a b) rfl

theorem readsAs_value {text key value other otherValue value' otherValue' : List UInt8}
    (reads : ReadsAs text key value other otherValue)
    (reads' : ReadsAs text key value' other otherValue') : otherValue = otherValue' := by
  obtain ⟨_, _, _, _, t4, parsed, _, _, _, _, _, _, bytes⟩ :=
    reads (cstr text) (cstr_image text) 5 (Nat.le_refl 5)
  obtain ⟨_, _, _, _, t4', parsed', _, _, _, _, _, _, bytes'⟩ :=
    reads' (cstr text) (cstr_image text) 5 (Nat.le_refl 5)
  rw [parsed] at parsed'
  simp only [Except.ok.injEq, Prod.mk.injEq, List.cons.injEq] at parsed'
  rw [← bytes, ← bytes', parsed'.2.2.2.2.2.1]

theorem stat_not_decimal {a b : Int} (created : EncodesStatistics a b (stat a b)
    (createStatsJson a b)) : False := by
  have tokens := created.tokens
  rw [created.whole.1] at tokens
  have same := readsAs_value tokens (stat_readsAs a b)
  have longer := congrArg List.length same
  rw [List.length_append, List.length_singleton] at longer
  omega

theorem encoders_never_agree (a b : Int) : ¬ EncodersAgree a b :=
  fun agree => stat_not_decimal agree.1

theorem encoders_differ_zero : ¬ ∀ a b : Int, IsInt32 a → IsInt32 b → EncodersAgree a b := by
  intro every
  exact stat_not_decimal (every 0 0 (by decide) (by decide)).1

end RoverStatusJson
