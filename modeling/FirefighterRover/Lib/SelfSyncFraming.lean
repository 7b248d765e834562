import Mathlib.Data.List.Basic

/-!
Self-synchronising frames: fixed-length frames over any alphabet whose first symbol is
flagged by `isHead` and whose other symbols are not. A decoder that starts at any offset
of a concatenation of frames drops the cut frame and recovers all the later ones.
-/
namespace SelfSyncFraming
variable {Symbol : Type}

def blocks (size : Nat) (stream : List Symbol) : List (List Symbol) :=
  (List.range (stream.length / size)).map fun i => (stream.drop (size * i)).take size

theorem blocks_short {size : Nat} {stream : List Symbol} (short : stream.length < size) :
    blocks size stream = [] := by
  simp [blocks, Nat.div_eq_of_lt short]

theorem blocks_cons {size : Nat} (positive : 0 < size) {first : List Symbol}
    (whole : first.length = size) (rest : List Symbol) :
    blocks size (first ++ rest) = first :: blocks size rest := by
  have count : (first ++ rest).length / size = rest.length / size + 1 := by
    rw [List.length_append, whole, Nat.add_comm, Nat.add_div_right _ positive]
  rw [blocks, count, List.range_succ_eq_map, List.map_cons, List.map_map]
  congr 1
  · simp [← whole]
  · apply List.map_congr_left
    intro i _
    have shift : size * (i + 1) = first.length + size * i := by rw [whole, Nat.mul_succ, Nat.add_comm]
    simp only [Function.comp, Nat.succ_eq_add_one, shift, List.drop_length_add_append]

theorem blocks_flatten {size : Nat} (positive : 0 < size) (groups : List (List Symbol))
    (whole : ∀ g ∈ groups, g.length = size) (rest : List Symbol) :
    blocks size (groups.flatten ++ rest) = groups ++ blocks size rest := by
  induction groups with
  | nil => rfl
  | cons g groups ih =>
    rw [List.flatten_cons, List.append_assoc, blocks_cons positive (whole g (by simp)),
      ih (fun x hx => whole x (by simp [hx])), List.cons_append]

structure IsFrame (isHead : Symbol → Bool) (size : Nat) (frame : List Symbol) : Prop where
  whole : frame.length = size
  head : ∃ h body, frame = h :: body ∧ isHead h = true ∧ ∀ x ∈ body, isHead x = false

/-- The receiver's loop. `buffer` is the frame being collected: a flagged symbol starts
    it afresh, an unflagged one extends it, and is dropped when no frame is open. -/
def decode (isHead : Symbol → Bool) (size : Nat) :
    List Symbol → List Symbol → List (List Symbol)
  | _, [] => []
  | buffer, x :: rest =>
    let buffer := if isHead x then [x] else if buffer = [] then [] else buffer ++ [x]
    if buffer.length = size then buffer :: decode isHead size [] rest
    else decode isHead size buffer rest

variable {isHead : Symbol → Bool} {size : Nat}

theorem decode_unflagged (positive : 0 < size) (junk rest : List Symbol)
    (unflagged : ∀ x ∈ junk, isHead x = false) :
    decode isHead size [] (junk ++ rest) = decode isHead size [] rest := by
  induction junk with
  | nil => rfl
  | cons x junk ih =>
    have off : isHead x = false := unflagged x (by simp)
    have short : ([] : List Symbol).length ≠ size := by simp only [List.length_nil]; omega
    simp only [List.cons_append, decode, off, Bool.false_eq_true, ↓reduceIte, if_neg short]
    exact ih (fun y hy => unflagged y (by simp [hy]))

theorem decode_body (body : List Symbol) (unflagged : ∀ x ∈ body, isHead x = false)
    (rest : List Symbol) : ∀ buffer : List Symbol, buffer ≠ [] → body ≠ [] →
    buffer.length + body.length = size →
    decode isHead size buffer (body ++ rest) =
      (buffer ++ body) :: decode isHead size [] rest := by
  induction body with
  | nil => intro _ _ nonempty; exact absurd rfl nonempty
  | cons x body ih =>
    intro buffer opened _ total
    have off : isHead x = false := unflagged x (by simp)
    simp only [List.cons_append, decode, off, Bool.false_eq_true, ↓reduceIte, if_neg opened]
    simp only [List.length_cons] at total
    by_cases last : body = []
    · subst last
      have full : (buffer ++ [x]).length = size := by simpa using total
      rw [if_pos full]
      rfl
    · have more : (buffer ++ [x]).length ≠ size := by
        have := List.length_pos_iff.mpr last
        simp only [List.length_append, List.length_singleton]
        omega
      rw [if_neg more, ih (fun y hy => unflagged y (by simp [hy])) (buffer ++ [x]) (by simp) last
        (by simp only [List.length_append, List.length_singleton]; omega)]
      simp

theorem decode_frame {frame : List Symbol} (ok : IsFrame isHead size frame)
    (rest : List Symbol) :
    decode isHead size [] (frame ++ rest) = frame :: decode isHead size [] rest := by
  obtain ⟨whole, h, body, rfl, flagged, unflagged⟩ := ok
  simp only [List.cons_append, decode, flagged, ↓reduceIte]
  simp only [List.length_cons] at whole
  by_cases single : body = []
  · subst single
    have full : [h].length = size := by simpa using whole
    rw [if_pos full]
    rfl
  · have more : [h].length ≠ size := by
      have := List.length_pos_iff.mpr single
      simp only [List.length_singleton]
      omega
    rw [if_neg more, decode_body body unflagged rest [h] (by simp) single (by simp; omega)]
    rfl

theorem decode_frames (frames : List (List Symbol))
    (ok : ∀ f ∈ frames, IsFrame isHead size f) :
    decode isHead size [] frames.flatten = frames := by
  induction frames with
  | nil => rfl
  | cons f frames ih =>
    rw [List.flatten_cons, decode_frame (ok f (by simp)), ih (fun x hx => ok x (by simp [hx]))]

/-- Resynchronisation. From any offset the decoder recovers exactly the frames that
    start at or after it. -/
theorem decode_drop (positive : 0 < size) (frames : List (List Symbol))
    (ok : ∀ f ∈ frames, IsFrame isHead size f) : ∀ offset,
    decode isHead size [] (frames.flatten.drop offset) =
      frames.drop ((offset + (size - 1)) / size) := by
  induction frames with
  | nil => intro offset; simp [decode]
  | cons f frames ih =>
    intro offset
    have first := ok f (by simp)
    have later : ∀ x ∈ frames, IsFrame isHead size x := fun x hx => ok x (by simp [hx])
    rcases Nat.lt_or_ge offset size with inside | past
    · rcases Nat.eq_zero_or_pos offset with atHead | cut
      · have none_skipped : (offset + (size - 1)) / size = 0 := Nat.div_eq_of_lt (by omega)
        rw [none_skipped, atHead]
        exact decode_frames (f :: frames) ok
      · have one_skipped : (offset + (size - 1)) / size = 1 := by
          rw [show offset + (size - 1) = offset - 1 + size by omega,
            Nat.add_div_right _ positive, Nat.div_eq_of_lt (by omega)]
        obtain ⟨whole, h, body, rfl, flagged, unflagged⟩ := first
        obtain ⟨k, rfl⟩ : ∃ k, offset = k + 1 := ⟨offset - 1, by omega⟩
        have inBody : k ≤ body.length := by simp only [List.length_cons] at whole; omega
        rw [one_skipped, List.flatten_cons, List.cons_append, List.drop_succ_cons,
          List.drop_append_of_le_length inBody,
          decode_unflagged positive _ _ (fun x hx => unflagged x (List.mem_of_mem_drop hx)),
          decode_frames frames later]
        rfl
    · have skipped : (offset + (size - 1)) / size = (offset - size + (size - 1)) / size + 1 := by
        rw [← Nat.add_div_right _ positive]
        congr 1
        omega
      have behind : f.length ≤ offset := by rw [first.whole]; exact past
      rw [skipped, List.flatten_cons, List.drop_append, List.drop_eq_nil_of_le behind,
        List.nil_append, first.whole, ih later, List.drop_succ_cons]

theorem flagged_iff_frame_start (frames : List (List Symbol))
    (ok : ∀ f ∈ frames, IsFrame isHead size f) : ∀ (i : Nat) (x : Symbol),
    frames.flatten[i]? = some x → (isHead x = true ↔ i % size = 0) := by
  induction frames with
  | nil => intro i x found; simp at found
  | cons f frames ih =>
    intro i x found
    obtain ⟨whole, h, body, rfl, flagged, unflagged⟩ := ok f (by simp)
    rcases Nat.lt_or_ge i size with inside | past
    · rw [Nat.mod_eq_of_lt inside]
      rw [List.flatten_cons, List.getElem?_append_left (by omega)] at found
      cases i with
      | zero => simp only [List.getElem?_cons_zero, Option.some.injEq] at found; simp [← found, flagged]
      | succ i =>
        rw [List.getElem?_cons_succ] at found
        simp [unflagged x (List.mem_of_getElem? found)]
    · rw [List.flatten_cons, List.getElem?_append_right (by omega), whole] at found
      rw [ih (fun y hy => ok y (by simp [hy])) _ _ found, Nat.mod_eq_sub_mod past]

end SelfSyncFraming
