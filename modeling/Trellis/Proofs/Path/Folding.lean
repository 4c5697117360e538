import Mathlib.Data.List.DropRight
import Trellis.Path

/-!
# Where a folded path leads

A path leads from a directory to another one (`Path.walk`). Told without a directory, a path climbs out of the place
it starts at some number of times and then goes down along names (`Path.Reach`), and the path that is written from
these is its *normal form* (`Path.normal`): two dots cancel the name in front of them, they are dropped behind the
root, and they are kept where there is nothing left to cancel. The normal form leads where the path leads, from every
directory (`Path.walk_normal`).

Folding a path takes its steps over the text of the path folded so far. Two dots undo the last piece of this text,
whatever it is, so dots that were kept are undone by the next ones, and dots behind the root are kept. Of the times
that a path climbs, folding keeps the remainder by two (`Path.fold_eq`). Hence it comes to the normal form of a
relative path that climbs at most once, and of an absolute path that goes above the root an even number of times.
-/

namespace Trellis

namespace Path

/-! ## Texts that are made of pieces -/

theorem cut_eq (current cs : List Char) : cut current cs = (cs.splitOn '/').modifyHead (current.reverse ++ ·) := by
  induction cs generalizing current with
  | nil => simp [cut]
  | cons c cs ih =>
    rw [cut, List.splitOn_cons_eq_if_modifyHead]
    cases c == '/' with
    | true => cases h : cs.splitOn '/' <;> simp [ih, h]
    | false => simp [ih, Function.comp_def]

theorem cut_nil_eq (cs : List Char) : cut [] cs = cs.splitOn '/' := by
  rw [cut_eq]
  cases cs.splitOn '/' <;> rfl

theorem slash_not_mem_of_mem_cut {current cs : List Char} (h : '/' ∉ current) :
    ∀ piece ∈ cut current cs, '/' ∉ piece := by
  induction cs generalizing current with
  | nil => simpa [cut] using h
  | cons c cs ih =>
    rw [cut]
    by_cases hc : c = '/'
    · simpa [hc, h] using ih List.not_mem_nil
    · simpa [hc] using ih (by simp [h, Ne.symm hc])

/-- A piece that is a step behind another one: it carries meaning, and no slash is in it. -/
def IsPiece (piece : String) : Prop :=
  isIdle piece = false ∧ '/' ∉ piece.toList

variable {piece : String} {names : List String}

theorem IsPiece.ne_nil (h : IsPiece piece) : piece.toList ≠ [] := by
  intro hnil
  rw [String.toList_eq_nil_iff] at hnil
  subst hnil
  exact Bool.false_ne_true h.1.symm

theorem IsPiece.head?_ne (h : IsPiece piece) : piece.toList.head? ≠ some '/' :=
  fun hhead => h.2 (List.mem_of_head? hhead)

theorem isPiece_up : IsPiece ".." := by
  unfold IsPiece
  decide

def spelled (pieces : List String) : List Char :=
  ['/'].intercalate (pieces.map String.toList)

theorem eq_of_toList {p q : Path} (h : p.text.toList = q.text.toList) : p = q :=
  congrArg Path.mk (String.toList_injective h)

theorem toList_ofPieces (absolute : Bool) (pieces : List String) :
    (ofPieces absolute pieces).text.toList = (if absolute then ['/'] else []) ++ spelled pieces := by
  cases absolute <;> simp [ofPieces, spelled, String.toList_intercalate]

theorem spelled_cons {others : List String} (h : others ≠ []) (first : String) :
    spelled (first :: others) = first.toList ++ '/' :: spelled others := by
  have hmap : others.map String.toList ≠ [] := by simpa using h
  simp [spelled, List.intercalate_cons_of_ne_nil hmap]

theorem spelled_concat {pieces : List String} (h : pieces ≠ []) (piece : String) :
    spelled (pieces ++ [piece]) = spelled pieces ++ '/' :: piece.toList := by
  induction pieces with
  | nil => exact absurd rfl h
  | cons first others ih =>
    rw [List.cons_append, spelled_cons (by simp)]
    by_cases hothers : others = []
    · simp [hothers, spelled]
    · rw [ih hothers, spelled_cons hothers, List.append_assoc, List.cons_append]

section

variable (absolute : Bool) {pieces : List String} (h : ∀ piece ∈ pieces, IsPiece piece)

include h

theorem head?_spelled : (spelled pieces).head? ≠ some '/' := by
  cases pieces with
  | nil => simp [spelled]
  | cons first others =>
    have hfirst := h first (.head _)
    by_cases hothers : others = []
    · simpa [hothers, spelled] using hfirst.head?_ne
    · rw [spelled_cons hothers, List.head?_append, Option.or_of_isSome (by simpa using hfirst.ne_nil)]
      exact hfirst.head?_ne

theorem getLast?_spelled : (spelled pieces).getLast? ≠ some '/' := by
  rcases List.eq_nil_or_concat pieces with rfl | ⟨others, last, rfl⟩
  · simp [spelled]
  · have hlast := h last (by simp)
    have hne : last.toList.getLast? ≠ some '/' := fun hslash => hlast.2 (List.mem_of_getLast? hslash)
    by_cases hothers : others = []
    · simpa [hothers, spelled] using hne
    · rw [List.concat_eq_append, spelled_concat hothers, List.getLast?_append, List.getLast?_cons_of_ne_nil hlast.ne_nil,
        Option.or_of_isSome (by simpa using hlast.ne_nil)]
      exact hne

theorem spelled_ne_nil (hnil : pieces ≠ []) : spelled pieces ≠ [] := by
  cases pieces with
  | nil => exact absurd rfl hnil
  | cons first others =>
    by_cases hothers : others = []
    · simpa [hothers, spelled] using (h first (.head _)).ne_nil
    · simp [spelled_cons hothers]

theorem isAbsolute_ofPieces : (ofPieces absolute pieces).isAbsolute = absolute := by
  rw [isAbsolute, toList_ofPieces]
  cases absolute with
  | true => rfl
  | false => simpa using head?_spelled h

theorem pieces_ofPieces : (ofPieces absolute pieces).pieces = if pieces = [] then [""] else pieces := by
  have hcut : (ofPieces absolute pieces).pieces = ((spelled pieces).splitOn '/').map String.ofList := by
    rw [Path.pieces, isAbsolute_ofPieces absolute h, toList_ofPieces, cut_nil_eq]
    cases absolute with
    | true => simp [List.splitOn_cons_eq_if_modifyHead]
    | false => rfl
  rw [hcut]
  by_cases hnil : pieces = []
  · simp [hnil, spelled]
  · have hslash : ∀ cs ∈ pieces.map String.toList, '/' ∉ cs := by
      simpa using fun piece hpiece => (h piece hpiece).2
    rw [spelled, List.splitOn_intercalate _ hslash (by simpa using hnil)]
    simp [hnil]

theorem filter_isIdle : pieces.filter (fun piece => !isIdle piece) = pieces :=
  List.filter_eq_self.mpr fun piece hpiece => by simp [(h piece hpiece).1]

theorem steps_ofPieces :
    (ofPieces absolute pieces).steps = (if absolute then [.root] else []) ++ pieces.map stepOf := by
  have hdot : pieces.head? ≠ some "." := by
    intro hhead
    exact Bool.false_ne_true (h "." (List.mem_of_head? hhead)).1.symm
  rw [steps, isAbsolute_ofPieces absolute h, pieces_ofPieces absolute h]
  by_cases hnil : pieces = []
  · cases absolute <;> simp [hnil, isIdle]
  · cases absolute <;> simp [hnil, hdot, filter_isIdle h]

theorem dropIdle_eq_self : dropIdle absolute pieces = pieces := by
  cases pieces with
  | nil => rfl
  | cons first others =>
    have hkept : (others.reverse.dropWhile isIdle).reverse = others := by
      rw [List.dropWhile_eq_self_iff.mpr, List.reverse_reverse]
      intro hlt
      have hlast := h _ (.tail _ (List.mem_reverse.mp (List.getElem_mem hlt)))
      exact ne_true_of_eq_false hlast.1
    have hfirst : first ≠ "" ∧ first ≠ "." := by simpa [isIdle] using (h first (.head _)).1
    simp [dropIdle, hkept, hfirst]

theorem parent?_ofPieces :
    (ofPieces absolute pieces).parent? =
      if pieces = [] then none else some (ofPieces absolute pieces.dropLast) := by
  rw [parent?, isAbsolute_ofPieces absolute h, pieces_ofPieces absolute h]
  cases pieces with
  | nil => cases absolute <;> rfl
  | cons first others =>
    have hlast : ∀ piece ∈ (first :: others).dropLast, IsPiece piece :=
      fun piece hpiece => h piece (List.dropLast_subset _ hpiece)
    rw [if_neg (List.cons_ne_nil _ _), dropIdle_eq_self absolute h]
    simp only [dropIdle_eq_self absolute hlast, reduceCtorEq, if_false]

theorem join_ofPieces (hpiece : IsPiece piece) :
    (ofPieces absolute pieces).join piece = ofPieces absolute (pieces ++ [piece]) := by
  have hrelative : (Path.mk piece).isAbsolute = false := by simpa [isAbsolute] using hpiece.head?_ne
  refine eq_of_toList ?_
  by_cases hnil : pieces = []
  · subst hnil
    cases absolute <;> simp [join, hrelative, ofPieces]
  · -- the text ends in the last piece, so a slash has to be put in between
    have hspelled := spelled_ne_nil h hnil
    have htext : (ofPieces absolute pieces).text ≠ "" := by
      rw [Ne, ← String.toList_eq_nil_iff, toList_ofPieces]
      simp [hspelled]
    have hlast : (ofPieces absolute pieces).text.toList.getLast? ≠ some '/' := by
      rw [toList_ofPieces, List.getLast?_append, Option.or_of_isSome (by simpa using hspelled)]
      exact getLast?_spelled h
    have hjoin : (ofPieces absolute pieces).join piece = ⟨(ofPieces absolute pieces).text ++ "/" ++ piece⟩ := by
      simp [join, hrelative, htext, hlast]
    rw [hjoin, toList_ofPieces, spelled_concat hnil]
    simp [toList_ofPieces]

end

/-! ## Where a path leads -/

/-- Where a step leads from a directory. A directory is given by its names, the innermost one first. -/
def leads (directory : List String) : PathStep → List String
  | .root => []
  | .here => directory
  | .up => directory.tail
  | .name s => s :: directory

def walk (directory : List String) (steps : List PathStep) : List String :=
  steps.foldl leads directory

structure Reach where
  absolute : Bool
  /-- How many steps up have found no name in front of them to cancel. -/
  climbs : Nat
  /-- The names it goes down along, the innermost one first. -/
  names : List String
deriving DecidableEq

namespace Reach

def step (r : Reach) : PathStep → Reach
  | .root => ⟨true, 0, []⟩
  | .here => r
  | .up =>
    match r.names with
    | [] => { r with climbs := r.climbs + 1 }
    | _ :: others => { r with names := others }
  | .name s => { r with names := s :: r.names }

def place (r : Reach) (directory : List String) : List String :=
  r.names ++ if r.absolute then [] else directory.drop r.climbs

/-- The pieces that it is written with: all steps up that found nothing to cancel are kept in front, those above the
root are dropped. -/
def pieces (r : Reach) : List String :=
  (if r.absolute then [] else List.replicate r.climbs "..") ++ r.names.reverse

theorem place_step (r : Reach) (s : PathStep) (directory : List String) :
    (r.step s).place directory = leads (r.place directory) s := by
  obtain ⟨absolute, climbs, names⟩ := r
  cases s with
  | root => rfl
  | here => rfl
  | name s => rfl
  | up =>
    cases names with
    | cons n others => rfl
    | nil => cases absolute <;> simp [step, place, leads]

theorem place_foldl (steps : List PathStep) (r : Reach) (directory : List String) :
    (steps.foldl step r).place directory = walk (r.place directory) steps := by
  induction steps generalizing r with
  | nil => rfl
  | cons s steps ih => rw [List.foldl_cons, ih, place_step, walk, walk, List.foldl_cons]

end Reach

def reach (p : Path) : Reach :=
  p.steps.foldl Reach.step ⟨false, 0, []⟩

theorem walk_steps (p : Path) (directory : List String) : walk directory p.steps = p.reach.place directory :=
  (Reach.place_foldl p.steps ⟨false, 0, []⟩ directory).symm

def shown (absolute : Bool) (pieces : List String) : Path :=
  if (ofPieces absolute pieces).text == "" then ⟨"."⟩ else ofPieces absolute pieces

def normal (p : Path) : Path :=
  shown p.reach.absolute p.reach.pieces

/-! ## Pieces that are names -/

def marks (p : Path) : List String :=
  p.pieces.filter fun piece => !isIdle piece

def lead (p : Path) : List PathStep :=
  if p.isAbsolute then [.root] else if p.pieces.head? == some "." then [.here] else []

theorem steps_eq (p : Path) : p.steps = p.lead ++ p.marks.map stepOf := by
  rw [steps, lead]
  cases p.isAbsolute with
  | true => rfl
  | false => cases p.pieces.head? == some "." <;> rfl

def IsName (piece : String) : Prop :=
  IsPiece piece ∧ piece ≠ ".."

theorem isPiece_of_mem_marks {p : Path} (h : piece ∈ p.marks) : IsPiece piece := by
  obtain ⟨hmem, hidle⟩ := List.mem_filter.mp h
  have hcut : piece ∈ (cut [] p.text.toList).map String.ofList := by
    rw [Path.pieces] at hmem
    cases hroot : p.isAbsolute with
    | true => exact List.mem_of_mem_tail (by simpa [hroot] using hmem)
    | false => simpa [hroot] using hmem
  obtain ⟨cs, hcs, rfl⟩ := List.mem_map.mp hcut
  refine ⟨by simpa using hidle, ?_⟩
  rw [String.toList_ofList]
  exact slash_not_mem_of_mem_cut List.not_mem_nil cs hcs

theorem isName_of_mem_steps {p : Path} {s : String} (h : .name s ∈ p.steps) : IsName s := by
  have hbody : .name s ∈ p.marks.map stepOf := by
    rw [steps_eq] at h
    refine (List.mem_append.mp h).resolve_left fun hlead => ?_
    rw [lead] at hlead
    split at hlead
    · simp at hlead
    · split at hlead <;> simp at hlead
  obtain ⟨piece, hpiece, hstep⟩ := List.mem_map.mp hbody
  by_cases hup : piece = ".."
  · simp [stepOf, hup] at hstep
  · obtain rfl : piece = s := by simpa [stepOf, hup] using hstep
    exact ⟨isPiece_of_mem_marks hpiece, hup⟩

theorem map_stepOf (h : ∀ n ∈ names, IsName n) : names.map stepOf = names.map .name :=
  List.map_congr_left fun n hn => by simp [stepOf, (h n hn).2]

theorem isPiece_of_mem_replicate_append (climbs : Nat) (h : ∀ n ∈ names, IsName n) :
    ∀ piece ∈ List.replicate climbs ".." ++ names.reverse, IsPiece piece := by
  intro piece hpiece
  rcases List.mem_append.mp hpiece with hup | hname
  · rw [List.eq_of_mem_replicate hup]
    exact isPiece_up
  · exact (h piece (List.mem_reverse.mp hname)).1

namespace Reach

def IsSound (r : Reach) : Prop :=
  ∀ n ∈ r.names, IsName n

theorem IsSound.step {r : Reach} (h : r.IsSound) {s : PathStep} (hs : ∀ n, s = .name n → IsName n) :
    (r.step s).IsSound := by
  obtain ⟨absolute, climbs, names⟩ := r
  cases s with
  | root => exact fun n hn => absurd hn List.not_mem_nil
  | here => exact h
  | name s => exact List.forall_mem_cons.mpr ⟨hs s rfl, h⟩
  | up =>
    cases names with
    | nil => exact h
    | cons n others => exact fun m hm => h m (.tail _ hm)

theorem absolute_step_stepOf (r : Reach) (piece : String) : (r.step (stepOf piece)).absolute = r.absolute := by
  obtain ⟨absolute, climbs, names⟩ := r
  rw [stepOf]
  cases piece == ".." with
  | false => rfl
  | true => cases names <;> rfl

theorem foldl_ups (count : Nat) (absolute : Bool) (climbs : Nat) :
    (List.replicate count PathStep.up).foldl step ⟨absolute, climbs, []⟩ = ⟨absolute, climbs + count, []⟩ := by
  induction count generalizing climbs with
  | zero => rfl
  | succ count ih =>
    rw [List.replicate_succ, List.foldl_cons]
    exact (ih (climbs + 1)).trans (by rw [Nat.add_right_comm, Nat.add_assoc])

theorem foldl_names (ns : List String) (r : Reach) :
    (ns.map PathStep.name).foldl step r = { r with names := ns.reverse ++ r.names } := by
  induction ns generalizing r with
  | nil => rfl
  | cons n ns ih =>
    rw [List.map_cons, List.foldl_cons, ih]
    simp [step]

end Reach

theorem reach_eq (p : Path) : p.reach = (p.marks.map stepOf).foldl Reach.step ⟨p.isAbsolute, 0, []⟩ := by
  rw [reach, steps_eq, lead]
  cases p.isAbsolute with
  | true => rfl
  | false => cases p.pieces.head? == some "." <;> rfl

theorem absolute_reach (p : Path) : p.reach.absolute = p.isAbsolute := by
  rw [reach_eq]
  induction p.marks using List.reverseRecOn with
  | nil => rfl
  | append_singleton pieces piece ih =>
    rw [List.map_append, List.foldl_append]
    exact (Reach.absolute_step_stepOf _ piece).trans ih

theorem reach_shown (absolute : Bool) (climbs : Nat) (h : ∀ n ∈ names, IsName n) :
    (shown absolute (List.replicate climbs ".." ++ names.reverse)).reach = ⟨absolute, climbs, names⟩ := by
  have hpieces := isPiece_of_mem_replicate_append climbs h
  have hnames : names.reverse.map stepOf = names.reverse.map .name :=
    map_stepOf fun n hn => h n (List.mem_reverse.mp hn)
  have hsteps : ((List.replicate climbs ".." ++ names.reverse).map stepOf).foldl Reach.step ⟨absolute, 0, []⟩ =
      ⟨absolute, climbs, names⟩ := by
    rw [List.map_append, List.map_replicate, hnames, List.foldl_append]
    show (names.reverse.map PathStep.name).foldl Reach.step
      ((List.replicate climbs PathStep.up).foldl Reach.step ⟨absolute, 0, []⟩) = _
    rw [Reach.foldl_ups, Reach.foldl_names]
    simp
  rw [← hsteps, shown]
  split
  · rename_i hempty
    rw [beq_iff_eq, ← String.toList_eq_nil_iff, toList_ofPieces] at hempty
    obtain ⟨hslash, hspelled⟩ := List.append_eq_nil_iff.mp hempty
    have hrelative : absolute = false := by simpa using hslash
    have hnil : List.replicate climbs ".." ++ names.reverse = [] :=
      not_not.mp fun hne => spelled_ne_nil hpieces hne hspelled
    rw [hnil, hrelative]
    rfl
  · rw [reach, steps_ofPieces absolute hpieces]
    cases absolute <;> rfl

/-! ## Folding -/

namespace Reach

/-- The path that folding has made of it. Of the times it climbs, the remainder by two is left, since two dots undo
two dots just as they undo a name. -/
def trail (r : Reach) : Path :=
  ofPieces r.absolute (List.replicate (r.climbs % 2) ".." ++ r.names.reverse)

theorem foldStep_trail {r : Reach} (h : r.IsSound) {s : PathStep} (hs : ∀ n, s = .name n → IsName n) :
    foldStep r.trail s = (r.step s).trail := by
  obtain ⟨absolute, climbs, names⟩ := r
  have hpieces := isPiece_of_mem_replicate_append (climbs % 2) h
  cases s with
  | root => rfl
  | here => rfl
  | name n =>
    have hjoin := join_ofPieces absolute hpieces (hs n rfl).1
    rw [List.append_assoc, ← List.reverse_cons] at hjoin
    exact hjoin
  | up =>
    have hparent := parent?_ofPieces absolute hpieces
    show ((ofPieces absolute _).parent?).getD _ = _
    rw [hparent]
    cases names with
    | cons n others => simp [step, trail]
    | nil =>
      rcases Nat.mod_two_eq_zero_or_one climbs with heven | hodd
      · -- there is no piece to undo
        have hjoin := join_ofPieces absolute (List.forall_mem_nil IsPiece) isPiece_up
        have hnext : (climbs + 1) % 2 = 1 := by omega
        simpa [step, trail, heven, hnext] using hjoin
      · -- the dots that were kept are undone
        have hnext : (climbs + 1) % 2 = 0 := by omega
        simp [step, trail, hodd, hnext]

end Reach

theorem foldl_foldStep {steps : List PathStep} (hsteps : ∀ n, .name n ∈ steps → IsName n) {r : Reach}
    (h : r.IsSound) :
    steps.foldl foldStep r.trail = (steps.foldl Reach.step r).trail ∧ (steps.foldl Reach.step r).IsSound := by
  induction steps generalizing r with
  | nil => exact ⟨rfl, h⟩
  | cons s steps ih =>
    have hs : ∀ n, s = .name n → IsName n := fun n hn => hsteps n (hn ▸ .head _)
    rw [List.foldl_cons, List.foldl_cons, Reach.foldStep_trail h hs]
    exact ih (fun n hn => hsteps n (.tail _ hn)) (h.step hs)

theorem foldl_steps (p : Path) : p.steps.foldl foldStep ⟨""⟩ = p.reach.trail ∧ p.reach.IsSound := by
  have hstart : (⟨false, 0, []⟩ : Reach).IsSound := fun _ hn => absurd hn List.not_mem_nil
  exact foldl_foldStep (fun _ => isName_of_mem_steps) hstart

theorem fold_eq (p : Path) :
    p.fold = shown p.isAbsolute (List.replicate (p.reach.climbs % 2) ".." ++ p.reach.names.reverse) := by
  rw [fold, (foldl_steps p).1, Reach.trail, absolute_reach, shown]

theorem reach_fold (p : Path) : p.fold.reach = ⟨p.isAbsolute, p.reach.climbs % 2, p.reach.names⟩ := by
  rw [fold_eq, reach_shown _ _ (foldl_steps p).2]

theorem normal_eq (p : Path) :
    p.normal = shown p.isAbsolute
      (List.replicate (if p.isAbsolute then 0 else p.reach.climbs) ".." ++ p.reach.names.reverse) := by
  rw [normal, Reach.pieces, absolute_reach]
  cases p.isAbsolute <;> rfl

theorem reach_normal (p : Path) :
    p.normal.reach = ⟨p.isAbsolute, if p.isAbsolute then 0 else p.reach.climbs, p.reach.names⟩ := by
  rw [normal_eq, reach_shown _ _ (foldl_steps p).2]

theorem walk_normal (p : Path) (directory : List String) : walk directory p.normal.steps = walk directory p.steps := by
  rw [walk_steps, walk_steps, reach_normal, Reach.place, Reach.place, absolute_reach]
  cases p.isAbsolute <;> rfl

/-- **Folding comes to the normal form** of exactly those paths that go above the root an even number of times, or
climb at most once out of the place they start at. -/
theorem fold_eq_normal_iff (p : Path) :
    p.fold = p.normal ↔ if p.isAbsolute then p.reach.climbs % 2 = 0 else p.reach.climbs ≤ 1 := by
  have hclimbs : p.fold = p.normal ↔ p.reach.climbs % 2 = if p.isAbsolute then 0 else p.reach.climbs := by
    refine ⟨fun h => ?_, fun h => by rw [fold_eq, normal_eq, h]⟩
    have hreach := congrArg (fun q : Path => q.reach.climbs) h
    simpa only [reach_fold, reach_normal] using hreach
  rw [hclimbs]
  cases p.isAbsolute with
  | true => exact Iff.rfl
  | false =>
    simp only [Bool.false_eq_true, if_false]
    omega

/-- **Folding keeps where a path leads** from a directory that is deep enough, if the path is absolute or climbs at
most once, and otherwise it does not. -/
theorem walk_fold_eq_iff (p : Path) {directory : List String} (h : p.reach.climbs ≤ directory.length) :
    walk directory p.fold.steps = walk directory p.steps ↔ p.isAbsolute = true ∨ p.reach.climbs ≤ 1 := by
  rw [walk_steps, walk_steps, reach_fold, Reach.place, Reach.place, absolute_reach]
  cases p.isAbsolute with
  | true => simp
  | false =>
    simp only [Bool.false_eq_true, if_false, List.append_cancel_left_eq, false_or]
    refine ⟨fun hdrop => ?_, fun hle => ?_⟩
    · have hlength := congrArg List.length hdrop
      rw [List.length_drop, List.length_drop] at hlength
      omega
    · rw [Nat.mod_eq_of_lt (Nat.lt_succ_of_le hle)]

/-- **What folding keeps of a path.** It comes to the normal form of a path that is absolute and goes above the root
an even number of times, or that is relative and climbs at most once, and of no other path. Where a relative path
climbs more often, what it folds to leads elsewhere, from every directory that is deep enough for the path; the
normal form would lead to the same place. -/
theorem fold_keeps_iff (p : Path) (directory : List String) (h : p.reach.climbs ≤ directory.length) :
    (p.fold = p.normal ↔ if p.isAbsolute then p.reach.climbs % 2 = 0 else p.reach.climbs ≤ 1) ∧
      (walk directory p.fold.steps = walk directory p.steps ↔ p.isAbsolute = true ∨ p.reach.climbs ≤ 1) ∧
      walk directory p.normal.steps = walk directory p.steps :=
  ⟨fold_eq_normal_iff p, walk_fold_eq_iff p h, walk_normal p directory⟩

/-- A path that climbs once, behind a name that is cancelled. -/
theorem fold_keeps_iff_climbingOnce :
    (Path.mk "a/../../b").reach.climbs ≤ ["x"].length ∧
      (Path.mk "a/../../b").fold = (Path.mk "a/../../b").normal ∧
      walk ["x"] (Path.mk "a/../../b").fold.steps = walk ["x"] (Path.mk "a/../../b").steps := by
  have hdeep : (Path.mk "a/../../b").reach.climbs ≤ ["x"].length := by decide +kernel
  obtain ⟨hnormal, hplace, -⟩ := fold_keeps_iff ⟨"a/../../b"⟩ ["x"] hdeep
  exact ⟨hdeep, hnormal.mpr (by decide +kernel), hplace.mpr (.inr (by decide +kernel))⟩

/-- Two steps up fold to none, and so lead nowhere; and a step up behind the root is not dropped. -/
theorem fold_undoes_climbs :
    ¬ (∀ (p : Path) (directory : List String), p.reach.climbs ≤ directory.length →
        walk directory p.fold.steps = walk directory p.steps) ∧
      ¬ (∀ p : Path, p.isAbsolute = true → p.fold = p.normal) := by
  refine ⟨fun h => ?_, fun h => ?_⟩
  · have hwalk : walk ["b", "a"] (Path.mk "../..").fold.steps = ["b", "a"] := by decide +kernel
    rw [h ⟨"../.."⟩ ["b", "a"] (by decide +kernel)] at hwalk
    exact absurd hwalk (by decide +kernel)
  · have hfold : (Path.mk "/..").fold.text = "/.." := by decide +kernel
    rw [h ⟨"/.."⟩ (by decide +kernel)] at hfold
    exact absurd hfold (by decide +kernel)

end Path

end Trellis
