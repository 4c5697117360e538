import Trellis.Library.Call
import Trellis.Proofs.Path.Folding

/-!
# Joining paths

The function that joins paths takes the slashes in front of *every* segment away, also in front of the first one,
puts the segments together and folds what comes out. So what it gives is never absolute: the segments of an absolute
path are joined to the relative path with the same pieces (`Library.callPath_join`). The joined path is the normal
form of the segments with slashes in between if the first segment is relative and the segments climb at most once,
and not otherwise.
-/

namespace Trellis

namespace Path

def marksOf (cs : List Char) : List String :=
  ((cs.splitOn '/').map String.ofList).filter fun piece => !isIdle piece

@[simp] theorem marksOf_nil : marksOf [] = [] := by
  decide

theorem marksOf_append_slash (as bs : List Char) : marksOf (as ++ '/' :: bs) = marksOf as ++ marksOf bs := by
  rw [marksOf, List.splitOn_append_cons_self, List.map_append, List.filter_append, marksOf, marksOf]

theorem marksOf_slash (cs : List Char) : marksOf ('/' :: cs) = marksOf cs :=
  marksOf_append_slash [] cs

theorem marks_eq (p : Path) : p.marks = marksOf p.text.toList := by
  rw [marks, pieces, cut_nil_eq, isAbsolute, marksOf]
  cases hcs : p.text.toList with
  | nil => rfl
  | cons c cs =>
    by_cases hc : c = '/'
    · subst hc
      simp [List.splitOn_cons_eq_if_modifyHead, isIdle]
    · simp [hc]

section

variable {other : String} (h : (Path.mk other).isAbsolute = false) (p : Path)

include h

theorem marks_join : (p.join other).marks = p.marks ++ marksOf other.toList := by
  rw [marks_eq, marks_eq, join, h]
  simp only [Bool.false_eq_true, if_false]
  by_cases hempty : p.text = ""
  · simp [hempty]
  · by_cases hslash : p.text.toList.getLast? = some '/'
    · -- the slash is there already
      obtain ⟨cs, hcs⟩ := List.getLast?_eq_some_iff.mp hslash
      rw [if_pos (by simp [hslash]), String.toList_append, hcs, List.append_assoc, List.singleton_append,
        marksOf_append_slash, marksOf_append_slash, marksOf_nil, List.append_nil]
    · rw [if_neg (by simp [hempty, hslash]), String.toList_append, String.toList_append, List.append_assoc]
      exact marksOf_append_slash _ _

theorem isAbsolute_join : (p.join other).isAbsolute = p.isAbsolute := by
  rw [join, h]
  simp only [Bool.false_eq_true, if_false]
  by_cases hempty : p.text = ""
  · rw [if_pos (by simp [hempty]), hempty, String.empty_append, h, isAbsolute, hempty]
    rfl
  · have hhead (cs : List Char) : (p.text.toList ++ cs).head? = p.text.toList.head? := by
      rw [List.head?_append, Option.or_of_isSome (by simpa using hempty)]
    split <;> simp only [isAbsolute, String.toList_append, List.append_assoc, hhead]

end

theorem isAbsolute_withoutSlashes (s : String) : (Path.mk (Library.withoutSlashes s)).isAbsolute = false := by
  have hhead := List.head?_dropWhile_not (· == '/') s.toList
  rw [isAbsolute, Library.withoutSlashes, String.toList_ofList]
  cases hdrop : (s.toList.dropWhile (· == '/')).head? with
  | none => rfl
  | some c =>
    rw [hdrop] at hhead
    simpa using hhead

theorem marksOf_withoutSlashes (s : String) : marksOf (Library.withoutSlashes s).toList = marksOf s.toList := by
  rw [Library.withoutSlashes, String.toList_ofList]
  induction s.toList with
  | nil => rfl
  | cons c cs ih =>
    by_cases hc : c = '/'
    · subst hc
      rw [List.dropWhile_cons_of_pos (by rfl), ih, marksOf_slash]
    · rw [List.dropWhile_cons_of_neg (by simpa using hc)]

def gather (segments : List String) : Path :=
  (segments.map Library.withoutSlashes).foldl join ⟨""⟩

theorem foldl_join (segments : List String) (p : Path) :
    ((segments.map Library.withoutSlashes).foldl join p).marks =
        p.marks ++ segments.flatMap (fun s => marksOf s.toList) ∧
      ((segments.map Library.withoutSlashes).foldl join p).isAbsolute = p.isAbsolute := by
  induction segments generalizing p with
  | nil => simp
  | cons s segments ih =>
    have hs := isAbsolute_withoutSlashes s
    obtain ⟨hmarks, habsolute⟩ := ih (p.join (Library.withoutSlashes s))
    rw [marks_join hs, marksOf_withoutSlashes, List.append_assoc] at hmarks
    exact ⟨hmarks, habsolute.trans (isAbsolute_join hs p)⟩

/-- The first segment and the others with slashes in between, without the slashes that the others start with. -/
def segmented (first : String) (others : List String) : Path :=
  ⟨"/".intercalate (first :: others.map Library.withoutSlashes)⟩

theorem marks_segmented (first : String) (others : List String) :
    (segmented first others).marks = (first :: others).flatMap fun s => marksOf s.toList := by
  rw [marks_eq, segmented, String.toList_intercalate]
  induction others generalizing first with
  | nil => simp
  | cons s others ih =>
    have hrest := ih (Library.withoutSlashes s)
    rw [List.flatMap_cons, marksOf_withoutSlashes] at hrest
    rw [List.map_cons, List.map_cons, List.map_cons, List.intercalate_cons_cons, List.append_assoc,
      List.flatMap_cons, List.flatMap_cons, ← hrest]
    exact marksOf_append_slash _ _

theorem isAbsolute_segmented {first : String} (h : first ≠ "") (others : List String) :
    (segmented first others).isAbsolute = (Path.mk first).isAbsolute := by
  have hhead (cs : List Char) : (first.toList ++ cs).head? = first.toList.head? := by
    rw [List.head?_append, Option.or_of_isSome (by simpa using h)]
  rw [isAbsolute, isAbsolute, segmented, String.toList_intercalate]
  cases others with
  | nil => simp
  | cons s others =>
    rw [List.map_cons, List.map_cons, List.map_cons, List.intercalate_cons_cons, List.append_assoc, hhead]

theorem Reach.foldl_stepOf (pieces : List String) (r : Reach) (absolute : Bool) :
    (pieces.map stepOf).foldl step { r with absolute } = { (pieces.map stepOf).foldl step r with absolute } := by
  induction pieces generalizing r with
  | nil => rfl
  | cons piece pieces ih =>
    have hstep : ({ r with absolute } : Reach).step (stepOf piece) = { r.step (stepOf piece) with absolute } := by
      obtain ⟨_, climbs, names⟩ := r
      rw [stepOf]
      cases piece == ".." with
      | false => rfl
      | true => cases names <;> rfl
    rw [List.map_cons, List.foldl_cons, hstep, ih, List.foldl_cons]

theorem reach_gather (first : String) (others : List String) :
    (gather (first :: others)).reach = { (segmented first others).reach with absolute := false } := by
  obtain ⟨hmarks, habsolute⟩ := foldl_join (first :: others) ⟨""⟩
  rw [gather, reach_eq, hmarks, habsolute, reach_eq, marks_segmented, ← Reach.foldl_stepOf]
  rfl

theorem isAbsolute_fold (p : Path) : p.fold.isAbsolute = p.isAbsolute := by
  rw [← absolute_reach, reach_fold]

theorem isAbsolute_normal (p : Path) : p.normal.isAbsolute = p.isAbsolute := by
  rw [← absolute_reach, reach_normal]

theorem fold_gather (first : String) (others : List String) :
    (gather (first :: others)).fold =
      shown false (List.replicate ((segmented first others).reach.climbs % 2) ".." ++
        (segmented first others).reach.names.reverse) := by
  rw [fold_eq, ← absolute_reach, reach_gather]

theorem text_fold_segmented {first : String} {others : List String}
    (h : (segmented first others).isAbsolute = true) :
    ∃ rest, (segmented first others).fold.text = "/" ++ rest ∧
      (gather (first :: others)).fold.text = if rest = "" then "." else rest := by
  rw [fold_gather, fold_eq, h]
  generalize List.replicate _ ".." ++ _ = pieces
  refine ⟨"/".intercalate pieces, ?_, ?_⟩
  · simp [shown, ofPieces]
  · by_cases hempty : "/".intercalate pieces = "" <;> simp [shown, ofPieces, hempty]

end Path

namespace Library

theorem textArguments_texts (name : String) (segments : List String) :
    textArguments name (segments.map .text) = .ok segments := by
  have hall (is : List Nat) (h : ∀ i ∈ is, i < segments.length) :
      is.mapM (textArgument name (segments.map .text)) = .ok (is.map fun i => segments[i]?.getD "") := by
    induction is with
    | nil => rfl
    | cons i is ih =>
      have hi : textArgument name (segments.map .text) i = .ok (segments[i]?.getD "") := by
        simp [textArgument, h i (.head _)]
      rw [List.mapM_cons, hi, ih fun j hj => h j (.tail _ hj)]
      rfl
  rw [textArguments, hall _ fun i hi => by simpa using hi, List.length_map]
  refine congrArg Except.ok (List.ext_getElem (by simp) fun i _ hi => ?_)
  simp [hi]

theorem callPath_join_eq (segments : List String) (span : Span) (m : Machine) :
    callPath .join (segments.map .text) span m = .done (.text (Path.gather segments).fold.text) m := by
  show (settle span (textArguments _ _) >>= fun parts => pure _ : Run Value) m = _
  rw [textArguments_texts]
  rfl

/-- **What joining gives.** If the first segment is relative, it is the segments with slashes in between, folded. If
the first segment is absolute, it is the same without the slash in front. So it is never absolute, and it is the
normal form of the segments exactly where the first one is relative and they climb at most once. -/
theorem callPath_join (first : String) (others : List String) (h : first ≠ "") (span : Span) (m : Machine) :
    ∃ joined : Path,
      callPath .join ((first :: others).map .text) span m = .done (.text joined.text) m ∧
      joined.isAbsolute = false ∧
      ((Path.mk first).isAbsolute = false → joined = (Path.segmented first others).fold) ∧
      ((Path.mk first).isAbsolute = true →
        ∃ rest, (Path.segmented first others).fold.text = "/" ++ rest ∧
          joined.text = if rest = "" then "." else rest) ∧
      (joined = (Path.segmented first others).normal ↔
        (Path.mk first).isAbsolute = false ∧ (Path.segmented first others).reach.climbs ≤ 1) := by
  have habsolute := Path.isAbsolute_segmented h others
  have hrelative : (Path.gather (first :: others)).fold.isAbsolute = false := by
    rw [Path.isAbsolute_fold, ← Path.absolute_reach, Path.reach_gather]
  have hfold (hfirst : (Path.mk first).isAbsolute = false) :
      (Path.gather (first :: others)).fold = (Path.segmented first others).fold := by
    rw [Path.fold_gather, Path.fold_eq, habsolute, hfirst]
  refine ⟨_, callPath_join_eq (first :: others) span m, hrelative, hfold,
    fun hfirst => Path.text_fold_segmented (habsolute.trans hfirst), fun hnormal => ?_, fun ⟨hfirst, hclimbs⟩ => ?_⟩
  · have hfirst : (Path.mk first).isAbsolute = false := by
      rw [← habsolute, ← Path.isAbsolute_normal, ← hnormal, hrelative]
    have hiff := Path.fold_eq_normal_iff (Path.segmented first others)
    rw [habsolute, hfirst] at hiff
    exact ⟨hfirst, hiff.mp ((hfold hfirst).symm.trans hnormal)⟩
  · rw [hfold hfirst, Path.fold_eq_normal_iff, habsolute, hfirst]
    exact hclimbs

/-- Segments that start with slashes behind the first one, and that climb once. -/
theorem callPath_join_climbing :
    "a/.." ≠ "" ∧ (Path.segmented "a/.." ["//..", "/b"]).normal.text = "../b" ∧
      ∀ span m, callPath .join [.text "a/..", .text "//..", .text "/b"] span m = .done (.text "../b") m := by
  have hne : "a/.." ≠ "" := by decide
  have hnormal : (Path.segmented "a/.." ["//..", "/b"]).normal.text = "../b" := by decide +kernel
  refine ⟨hne, hnormal, fun span m => ?_⟩
  obtain ⟨joined, hcall, -, -, -, hiff⟩ := callPath_join "a/.." ["//..", "/b"] hne span m
  rw [hiff.mpr (by decide +kernel), hnormal] at hcall
  exact hcall

/-- Joined to another segment, an absolute path becomes a relative one. -/
theorem callPath_join_absolute :
    (Path.mk "/a").isAbsolute = true ∧ (Path.segmented "/a" ["b"]).normal.text = "/a/b" ∧
      (∀ span m, callPath .join [.text "/a", .text "b"] span m = .done (.text "a/b") m) ∧
      (Path.mk "a/b").isAbsolute = false := by
  have htext : (Path.gather ["/a", "b"]).fold.text = "a/b" := by decide +kernel
  refine ⟨by decide +kernel, by decide +kernel, fun span m => ?_, by decide +kernel⟩
  rw [← htext]
  exact callPath_join_eq ["/a", "b"] span m

end Library

end Trellis
