import Colloquy.Console.Screen
import Colloquy.Proofs.Timeline.Revealed
import Colloquy.Proofs.Timeline.Typewriter

/-!
# Lines on the console

A line is printed slice by slice: each reveal prints from the byte that was printed last to the last byte that it
reveals, and what is left comes at the end (`printedRanges`).  A slice of a text exists only between two offsets
that are in order and stand between characters (`Slice`).  The ranges of a line are of this kind for
every timeline, since what a typewriter reveals grows, and the slices are the text cut up
(`line_printed_once`).
-/

namespace Colloquy

namespace Console

/-- The bytes of a text that its line prints one after the other, from the byte `shown` on. -/
def printedRanges (text : String) : Nat → List Typewriter.Step → List (Nat × Nat)
  | shown, [] => [(shown, text.utf8ByteSize)]
  | shown, .reveal count :: steps =>
    let stop := (revealed text count).utf8ByteSize
    (shown, stop) :: printedRanges text stop steps
  | shown, .event _ :: steps => printedRanges text shown steps

/-- The slices of the text among the parts of a line. -/
def slices (parts : List LinePart) : List (List Char) :=
  parts.filterMap fun
    | .text slice => some slice
    | .event _ => none

/-- A slice of a text between two offsets in bytes, which are in order and stand between characters of the
text. -/
structure Slice (text : String) (range : Nat × Nat) (slice : List Char) : Prop where
  ordered : range.1 ≤ range.2
  within : range.2 ≤ text.utf8ByteSize
  starts : String.Pos.Raw.IsValid text ⟨range.1⟩
  stops : String.Pos.Raw.IsValid text ⟨range.2⟩
  bytes : (String.ofList slice).toByteArray = text.toByteArray.extract range.1 range.2

/-- The middle of three parts is a slice of the whole. -/
theorem slice_append (front middle back : String) :
    Slice (front ++ (middle ++ back)) (front.utf8ByteSize, (front ++ middle).utf8ByteSize) middle.toList where
  ordered := by
    rw [String.utf8ByteSize_append]
    exact Nat.le_add_right ..
  within := by
    show (front ++ middle).utf8ByteSize ≤ _
    rw [← String.append_assoc, String.utf8ByteSize_append (t := back)]
    exact Nat.le_add_right ..
  starts := String.Pos.Raw.isValid_iff_exists_append.mpr ⟨front, middle ++ back, rfl, rfl⟩
  stops := String.Pos.Raw.isValid_iff_exists_append.mpr
    ⟨front ++ middle, back, (String.append_assoc ..).symm, rfl⟩
  bytes := by
    rw [String.ofList_toList, String.toByteArray_append, String.toByteArray_append, String.utf8ByteSize_append,
      ← String.size_toByteArray, ← String.size_toByteArray, ← Nat.add_zero front.toByteArray.size,
      Nat.add_assoc, ByteArray.extract_append_size_add, Nat.zero_add]
    exact (ByteArray.extract_append_eq_left rfl).symm

/-- The number of bytes of the first characters of a text. -/
def sizeOfFirst (text : String) (k : Nat) : Nat := (String.ofList (text.toList.take k)).utf8ByteSize

/-- Characters of a text in a row are a slice of it. -/
theorem slice_take (text : String) {start stop : Nat} (h : start ≤ stop) :
    Slice text (sizeOfFirst text start, sizeOfFirst text stop) ((text.toList.take stop).drop start) := by
  have htake : text.toList.take start ++ (text.toList.take stop).drop start = text.toList.take stop := by
    have hfirst : text.toList.take start = (text.toList.take stop).take start := by
      rw [List.take_take, min_eq_left h]
    rw [hfirst, List.take_append_drop]
  have hslice := slice_append (String.ofList (text.toList.take start))
    (String.ofList ((text.toList.take stop).drop start)) (String.ofList (text.toList.drop stop))
  rw [← String.append_assoc, ← String.ofList_append, htake, ← String.ofList_append, List.take_append_drop,
    String.ofList_toList, String.toList_ofList] at hslice
  exact hslice

/-- What is revealed are the first characters of the text. -/
theorem sizeOfFirst_revealed (text : String) (n : Nat) :
    sizeOfFirst text (revealed text n).length = (revealed text n).utf8ByteSize := by
  obtain ⟨back, hback⟩ := revealed_append text n
  have htake : text.toList.take (revealed text n).length = (revealed text n).toList := by
    conv => lhs; arg 2; rw [hback]
    rw [String.toList_append, ← String.length_toList, List.take_left]
  rw [sizeOfFirst, htake, String.ofList_toList]

/-- The numbers of characters that are printed once the reveals among steps are. -/
def printedStops (text : String) (steps : List Typewriter.Step) : List Nat :=
  (steps.filterMap Typewriter.Step.count?).map fun n => (revealed text n).length

/-- If no reveal goes back, what is printed are slices of the text, and all of it from where the line goes on. -/
theorem lineParts_slices (text : String) (steps : List Typewriter.Step) {shown : Nat}
    (h : (shown :: printedStops text steps).Pairwise (· ≤ ·)) (hshown : shown ≤ text.length) :
    List.Forall₂ (Slice text) (printedRanges text (sizeOfFirst text shown) steps)
        (slices (lineParts text shown steps)) ∧
      (slices (lineParts text shown steps)).flatten = text.toList.drop shown := by
  induction steps generalizing shown with
  | nil =>
    have hall : text.toList.take text.length = text.toList := List.take_of_length_le String.length_toList.le
    have hrest := slice_take text hshown
    rw [sizeOfFirst, sizeOfFirst, hall, String.ofList_toList] at hrest
    exact ⟨.cons hrest .nil, List.append_nil _⟩
  | cons step steps ih =>
    cases step with
    | event e => exact ih h hshown
    | reveal count =>
      -- the slice up to what is revealed, and by induction what is printed from there
      obtain ⟨hstop, hrest⟩ : (∀ n ∈ (revealed text count).length :: printedStops text steps, shown ≤ n) ∧
          ((revealed text count).length :: printedStops text steps).Pairwise (· ≤ ·) :=
        List.pairwise_cons.mp h
      have hle : shown ≤ (revealed text count).length := hstop _ (List.mem_cons_self ..)
      have hwithin : (revealed text count).length ≤ text.length := by
        obtain ⟨back, hback⟩ := revealed_append text count
        rw [congrArg String.length hback, String.length_append]
        exact Nat.le_add_right ..
      obtain ⟨hslices, hflatten⟩ := ih hrest hwithin
      rw [sizeOfFirst_revealed] at hslices
      have hslice := slice_take text hle
      rw [sizeOfFirst_revealed] at hslice
      refine ⟨.cons hslice hslices, ?_⟩
      show _ ++ (slices (lineParts text (revealed text count).length steps)).flatten = _
      obtain ⟨n, hn⟩ := Nat.exists_eq_add_of_le hle
      rw [hflatten, hn, List.drop_take, Nat.add_sub_cancel_left, List.drop_take_append_drop]

/-- The stops of a line are in order, since what is revealed grows. -/
theorem printedStops_ordered (text : String) (timeline : List Cue) :
    (0 :: printedStops text ((Typewriter.frames text timeline).map (·.step))).Pairwise (· ≤ ·) := by
  refine List.pairwise_cons.mpr ⟨fun _ _ => Nat.zero_le _, ?_⟩
  have hcounts := Typewriter.counts_increasing (visibleLength text) 0 timeline
  rw [Typewriter.counts, ← Function.comp_def, ← List.filterMap_map] at hcounts
  refine List.Pairwise.map (fun n => (revealed text n).length) (fun m n hlt => ?_) hcounts
  rw [← String.length_toList, ← String.length_toList]
  exact (revealed_mono hlt.le text).length_le

/-- Whatever timeline a text has, its line prints slices of it, from the last byte that was printed up to what is
revealed, and then up to the end.  All of them exist: they do not go back, they end within the text, and none of
them cuts a character.  Together they are the text. -/
theorem line_printed_once (text : String) (timeline : List Cue) :
    let steps := (Typewriter.frames text timeline).map (·.step)
    List.Forall₂ (Slice text) (printedRanges text 0 steps) (slices (lineParts text 0 steps)) ∧
      (slices (lineParts text 0 steps)).flatten = text.toList :=
  lineParts_slices text _ (printedStops_ordered text timeline) (Nat.zero_le _)

end Console

end Colloquy
