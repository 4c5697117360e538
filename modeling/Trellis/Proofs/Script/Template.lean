import Mathlib.Data.List.Chain
import Mathlib.Data.List.TakeWhile
import Trellis.Script.Template

/-!
# Splitting a template

A text is read from left to right in *pieces* (`Template.Piece`): a character that stands for itself, a backslash with
the character behind it, or a slot. The pieces of a text are determined by it (`Template.Pieces`). Splitting gathers
the pieces of a text in segments (`Template.exists_pieces`), and a slot is a segment of its own. So nothing is lost
(`Template.split_lossless`), and the source of a slot stands in the text where its offset says
(`Template.exists_of_split`).
-/

namespace Trellis.Template

inductive Piece where
  | plain (c : Char)
  /-- A backslash and the character behind it. -/
  | escaped (c : Char)
  | slot (source : List Char)

namespace Piece

def wrapped (source : List Char) : List Char :=
  opener :: opener :: (source ++ [closer, closer])

def written : Piece → List Char
  | plain c => [c]
  | escaped c => ['\\', c]
  | slot source => wrapped source

def denoted : Piece → List Char
  | plain c => [c]
  | escaped c => [unescape c]
  | slot source => wrapped source

/-- What may stand in front of the rest: a backslash is escaped unless it is the last character, two opening
braces start a slot, and a slot goes up to the next closing brace. -/
def FitsBefore (rest : List Char) : Piece → Prop
  | plain c => (c = '\\' → rest = []) ∧ (c = opener → rest.head? ≠ some opener)
  | escaped _ => True
  | slot source => closer ∉ source ∧ Text.allBlank source = false

end Piece

def Pieces : List Char → List Piece → Prop
  | cs, [] => cs = []
  | cs, p :: ps => ∃ rest, cs = p.written ++ rest ∧ p.FitsBefore rest ∧ Pieces rest ps

def gather (offset : Nat) (reversed : List Char) : List Piece → List Segment
  | [] => flush reversed []
  | .plain c :: ps => gather (offset + 1) (c :: reversed) ps
  | .escaped c :: ps => gather (offset + 2) (unescape c :: reversed) ps
  | .slot source :: ps =>
    flush reversed (.slot (String.ofList source) (offset + 2) :: gather (offset + 2 + source.length + 2) [] ps)

theorem append_closers {rest : List Char} (h : ((rest.dropWhile (· != closer)).take 2 == [closer, closer]) = true) :
    rest = rest.takeWhile (· != closer) ++ (closer :: closer :: (rest.dropWhile (· != closer)).drop 2) := by
  conv => lhs; rw [← List.takeWhile_append_dropWhile (p := (· != closer)) (l := rest)]
  rw [List.append_cancel_left_eq]
  conv => lhs; rw [← List.take_append_drop 2 (rest.dropWhile (· != closer)), beq_iff_eq.mp h]
  rfl

theorem closer_notMem_takeWhile (rest : List Char) : closer ∉ rest.takeWhile (· != closer) :=
  fun h => by simpa using List.mem_takeWhile_imp h

variable {segments : List Segment} {source : String} {offset : Nat}

theorem exists_pieces {reversed cs : List Char} (h : splitFrom offset reversed cs = .ok segments) :
    ∃ ps, Pieces cs ps ∧ segments = gather offset reversed ps := by
  fun_induction splitFrom offset reversed cs generalizing segments with
  | case1 offset reversed =>
    cases h
    exact ⟨[], rfl, rfl⟩
  | case2 offset reversed c =>
    cases h
    exact ⟨[.plain c], ⟨[], rfl, ⟨fun _ => rfl, nofun⟩, rfl⟩, rfl⟩
  | case3 offset reversed a b rest hescape ih =>
    obtain ⟨ps, hps, rfl⟩ := ih h
    exact ⟨.escaped b :: ps, ⟨rest, by rw [beq_iff_eq.mp hescape]; rfl, trivial, hps⟩, rfl⟩
  | case4 => cases h
  | case5 offset reversed a b rest hescape hopen source hclosed hblank =>
    rename_i ih
    cases hrest : splitFrom (offset + 2 + source.length + 2) [] ((rest.dropWhile (· != closer)).drop 2) with
    | error fault =>
      rw [hrest] at h
      cases h
    | ok others =>
      rw [hrest] at h
      cases h
      obtain ⟨ps, hps, rfl⟩ := ih hrest
      rw [Bool.and_eq_true, beq_iff_eq, beq_iff_eq] at hopen
      refine ⟨.slot source :: ps, ⟨_, ?_, ⟨closer_notMem_takeWhile rest, Bool.eq_false_iff.mpr hblank⟩, hps⟩, rfl⟩
      conv => lhs; rw [hopen.1, hopen.2, append_closers hclosed]
      simp [Piece.written, Piece.wrapped, source]
  | case6 => cases h
  | case7 offset reversed a b rest hescape hopen ih =>
    obtain ⟨ps, hps, rfl⟩ := ih h
    refine ⟨.plain a :: ps, ⟨b :: rest, rfl, ⟨fun heq => absurd (beq_iff_eq.mpr heq) hescape, fun heq => ?_⟩, hps⟩, rfl⟩
    rintro ⟨⟩
    exact hopen (by rw [heq]; rfl)

/-! ## Segments -/

namespace Segment

def wrapped : Segment → List Char
  | text s => s.toList
  | slot source _ => Piece.wrapped source.toList

def isText : Segment → Bool
  | text _ => true
  | slot _ _ => false

end Segment

theorem flatMap_flush (reversed : List Char) (segments : List Segment) :
    (flush reversed segments).flatMap Segment.wrapped = reversed.reverse ++ segments.flatMap Segment.wrapped := by
  cases reversed with
  | nil => rfl
  | cons c cs => simp [flush, Segment.wrapped]

theorem flatMap_gather (offset : Nat) (reversed : List Char) (ps : List Piece) :
    (gather offset reversed ps).flatMap Segment.wrapped = reversed.reverse ++ ps.flatMap Piece.denoted := by
  fun_induction gather offset reversed ps with
  | case1 => rw [flatMap_flush]; rfl
  | case2 offset reversed c ps ih => simp [ih, Piece.denoted]
  | case3 offset reversed c ps ih => simp [ih, Piece.denoted]
  | case4 offset reversed source ps ih =>
    rw [flatMap_flush, List.flatMap_cons, ih]
    simp [Segment.wrapped, Piece.denoted]

/-- A slot is one of the pieces, and its source stands behind what is written in front of it and the two braces. -/
theorem exists_of_mem_gather {offset place : Nat} {reversed : List Char} {ps : List Piece}
    (h : .slot source place ∈ gather offset reversed ps) :
    ∃ before behind, ps = before ++ .slot source.toList :: behind ∧
      place = offset + (before.flatMap Piece.written).length + 2 := by
  have flushed {segments : List Segment} {reversed : List Char} (h : .slot source place ∈ flush reversed segments) :
      .slot source place ∈ segments := by
    unfold flush at h
    split at h
    · exact h
    · exact (List.mem_cons.mp h).resolve_left nofun
  fun_induction gather offset reversed ps with
  | case1 => cases flushed h
  | case2 offset reversed c ps ih =>
    obtain ⟨before, behind, rfl, rfl⟩ := ih h
    exact ⟨.plain c :: before, behind, rfl, by simp [Piece.written]; omega⟩
  | case3 offset reversed c ps ih =>
    obtain ⟨before, behind, rfl, rfl⟩ := ih h
    exact ⟨.escaped c :: before, behind, rfl, by simp [Piece.written]; omega⟩
  | case4 offset reversed inner ps ih =>
    obtain heq | h := List.mem_cons.mp (flushed h)
    · cases heq
      exact ⟨[], ps, by rw [String.toList_ofList]; rfl, rfl⟩
    · obtain ⟨before, behind, rfl, rfl⟩ := ih h
      exact ⟨.slot inner :: before, behind, rfl, by simp [Piece.written, Piece.wrapped]; omega⟩

def Alternate (segments : List Segment) : Prop :=
  segments.IsChain (fun a b => (a.isText && b.isText) = false) ∧ ∀ s, .text s ∈ segments → s ≠ ""

theorem Alternate.flush (h : Alternate segments) (first : ∀ s ∈ segments.head?, s.isText = false)
    (reversed : List Char) : Alternate (flush reversed segments) := by
  cases reversed with
  | nil => exact h
  | cons c cs =>
    refine ⟨List.isChain_cons.mpr ⟨fun s hs => by rw [first s hs, Bool.and_false], h.1⟩, fun s hs => ?_⟩
    obtain heq | hs := List.mem_cons.mp hs
    · cases heq
      simp
    · exact h.2 s hs

theorem alternate_gather (offset : Nat) (reversed : List Char) (ps : List Piece) :
    Alternate (gather offset reversed ps) := by
  fun_induction gather offset reversed ps with
  | case1 => exact .flush ⟨.nil, nofun⟩ nofun _
  | case2 offset reversed c ps ih => exact ih
  | case3 offset reversed c ps ih => exact ih
  | case4 offset reversed source ps ih =>
    refine .flush ⟨List.isChain_cons.mpr ⟨fun _ _ => rfl, ih.1⟩, fun s hs => ?_⟩ (by rintro _ ⟨⟩; rfl) _
    exact ih.2 s ((List.mem_cons.mp hs).resolve_left nofun)

/-! ## Slots -/

theorem Pieces.of_append {cs : List Char} {before behind : List Piece} (h : Pieces cs (before ++ behind)) :
    ∃ rest, cs = before.flatMap Piece.written ++ rest ∧ Pieces rest behind := by
  induction before generalizing cs with
  | nil => exact ⟨cs, rfl, h⟩
  | cons p before ih =>
    obtain ⟨rest, rfl, -, later⟩ := h
    obtain ⟨rest, rfl, hrest⟩ := ih later
    exact ⟨rest, by rw [List.flatMap_cons, List.append_assoc], hrest⟩

theorem exists_of_split {text : String} (h : split text = .ok segments) (hslot : .slot source offset ∈ segments) :
    ∃ before behind, text.toList = before ++ opener :: opener :: (source.toList ++ closer :: closer :: behind) ∧
      before.length + 2 = offset ∧ closer ∉ source.toList ∧ Text.allBlank source.toList = false := by
  obtain ⟨ps, hps, rfl⟩ := exists_pieces h
  obtain ⟨before, behind, rfl, rfl⟩ := exists_of_mem_gather hslot
  obtain ⟨_, hcs, rest, rfl, fits, -⟩ := hps.of_append
  refine ⟨before.flatMap Piece.written, rest, ?_, by omega, fits⟩
  rw [hcs]
  simp [Piece.written, Piece.wrapped]

theorem length_slot {text : String} (h : split text = .ok segments) (hslot : .slot source offset ∈ segments) :
    source.length + 4 ≤ text.length := by
  obtain ⟨before, behind, htext, -⟩ := exists_of_split h hslot
  rw [← String.length_toList, ← String.length_toList, htext]
  simp only [List.length_append, List.length_cons]
  omega

theorem takeWhile_source {source : List Char} (h : closer ∉ source) (behind : List Char) :
    (source ++ closer :: behind).takeWhile (· != closer) = source ∧
      (source ++ closer :: behind).dropWhile (· != closer) = closer :: behind := by
  have passes : ∀ c ∈ source, (c != closer) = true := fun c hc => bne_iff_ne.mpr fun heq => h (heq ▸ hc)
  rw [List.takeWhile_append_of_pos passes, List.dropWhile_append_of_pos passes]
  simp

theorem hasSlot_append {cs : List Char} (front : List Char) (h : hasSlot cs = true) : hasSlot (front ++ cs) = true := by
  induction front with
  | nil => exact h
  | cons c front ih => rw [List.cons_append, hasSlot, ih, Bool.or_true]

/-- **Splitting a template loses nothing**, and a text that has a slot is a template. -/
theorem split_lossless {text : String} {segments : List Segment} (h : split text = .ok segments) :
    (∃ ps, Pieces text.toList ps ∧ segments.flatMap Segment.wrapped = ps.flatMap Piece.denoted) ∧
      (∀ source offset, .slot source offset ∈ segments → Text.allBlank source.toList = false ∧
        source.toList = (text.toList.drop offset).takeWhile (· != closer)) ∧
      (∀ s, .text s ∈ segments → s ≠ "") ∧ segments.IsChain (fun a b => (a.isText && b.isText) = false) ∧
      ((∃ source offset, .slot source offset ∈ segments) → isTemplate text = true) := by
  obtain ⟨ps, hps, hsegments⟩ := exists_pieces h
  have alternate := alternate_gather 0 [] ps
  rw [← hsegments] at alternate
  refine ⟨⟨ps, hps, by rw [hsegments]; exact flatMap_gather 0 [] ps⟩, ?_, alternate.2, alternate.1, ?_⟩
  · intro source offset hslot
    obtain ⟨before, behind, htext, rfl, hcloser, hblank⟩ := exists_of_split h hslot
    refine ⟨hblank, ?_⟩
    rw [htext, List.drop_length_add_append]
    exact (takeWhile_source hcloser _).1.symm
  · rintro ⟨source, offset, hslot⟩
    obtain ⟨before, behind, htext, rfl, hcloser, hblank⟩ := exists_of_split h hslot
    have hsource : source.toList ≠ [] := fun hnil => by rw [hnil] at hblank; cases hblank
    rw [isTemplate, htext]
    refine hasSlot_append before ?_
    rw [hasSlot, startsSlot, (takeWhile_source hcloser _).1, (takeWhile_source hcloser _).2]
    simp [hsource]

/-- A text with an escape, a slot and a backslash at its end is put together again. -/
theorem split_lossless_escaped : split "a\\n\x7b\x7bb\x7d\x7d\\" = .ok [.text "a\n", .slot "b" 5, .text "\\"] ∧
    isTemplate "a\\n\x7b\x7bb\x7d\x7d\\" = true := by
  have h : split "a\\n\x7b\x7bb\x7d\x7d\\" = .ok [.text "a\n", .slot "b" 5, .text "\\"] := by cbv
  exact ⟨h, (split_lossless h).2.2.2.2 ⟨"b", 5, by simp⟩⟩

end Trellis.Template
