import Trellis.Proofs.Token.Places

/-!
# Where the faults of a script are

A fault is about a piece of the script: a character that starts nothing, a bracket that closes nothing, a text up to
the end of its line, a number with the word behind it, or a comment up to the end of the script
(`ScanFault.Offends`). The faults come in the order of these pieces, and each one is as long as its piece and shown at
the first character of it (`located_faults`). There is one exception: a comment that is never closed and goes over
several lines is shown at the start of the last line (`comment_misplaced`).
-/

namespace Trellis

def ScanFault.Offends : ScanFault → List Char → List Char → Prop
  | unmatched c, text, _ => text = [c] ∧ ∃ s, Symbol.single? c = some s ∧ s.isCloser = true
  | stray c, text, _ => text = [c] ∧ Lexeme.StartsNothing c
  | unterminatedComment, text, behind => behind = [] ∧ ∃ body, text = '#' :: '*' :: body ∧ ¬ ['*', '#'] <:+: body
  | unterminatedText, text, behind => Lexeme.lineEnds behind = true ∧
      ∃ quote body, text = quote :: body ∧ (quote = '\x22' ∨ quote = '\x27') ∧ quote ∉ body ∧ '\n' ∉ body
  | badSuffix number suffix, text, behind => Lexeme.wordEnds behind = true ∧
      ∃ d ds fraction tail, number.toList = d :: (ds ++ fraction) ∧ (d :: ds).all Char.isDigit = true ∧
        Lexeme.IsFraction fraction ∧ text = number.toList ++ suffix :: tail ∧ Text.startsWord suffix = true ∧
        tail.all Text.continuesWord = true

def ScanFault.OverLines (fault : ScanFault) (text : List Char) : Prop :=
  fault = unterminatedComment ∧ '\n' ∈ text

structure LocatedScanFault.IsAbout (source : List Char) (f : LocatedScanFault) (start : Nat) : Prop where
  inside : start + f.span.length ≤ source.length
  offends : f.fault.Offends ((source.drop start).take f.span.length) (source.drop (start + f.span.length))
  /-- One more than there are line feeds in front of the piece, and one more than there are characters on the same line
  in front of it. -/
  place : ¬ f.fault.OverLines ((source.drop start).take f.span.length) →
    f.span.line = 1 + (source.take start).count '\n' ∧ f.span.col = 1 + (Text.lastLine (source.take start)).length
  overLines : f.fault.OverLines ((source.drop start).take f.span.length) →
    f.span.line = 1 + source.count '\n' ∧ f.span.col = 1

namespace Scan

/-- **What a lexeme is blamed for**: a closing bracket that is not owed, or a fault of its own. -/
inductive Blames (position : Position) (x : Lexeme) : LocatedScanFault → Prop where
  | bracket {symbol} (kind : x.kind = .symbol symbol) (closer : symbol.isCloser = true) :
      Blames position x ⟨.unmatched (x.text.headD ' '), position.span x.text.length⟩
  | own {fault} (kind : x.kind = .fault fault) :
      Blames position x ⟨fault, faultSpan position (position.after x.text) fault x.text.length⟩

theorem Steps.faults_eq {keywords : KeywordTable} {s s' : Scan} {x : Lexeme} (h : s.Steps keywords x s') :
    s'.faults = s.faults ∨ ∃ f, Blames s.position x f ∧ s'.faults = f :: s.faults := by
  cases h with
  | token hkind settles =>
    cases settles with
    | unmatched closer => exact .inr ⟨_, .bracket (Lexeme.symbol_of_tokenKind? hkind) closer, rfl⟩
    | _ => exact .inl rfl
  | fault hkind => exact .inr ⟨_, .own hkind, rfl⟩
  | _ => exact .inl rfl

end Scan

variable {f : LocatedScanFault}

theorem Lexeme.Reads.offends {c : Char} {rest : List Char} {x : Lexeme} (h : Reads c rest x) {position : Position}
    (blamed : Scan.Blames position x f) : f.fault.Offends x.text x.rest := by
  cases blamed with
  | bracket kind closer =>
    cases h with
    | single h =>
      cases kind
      exact ⟨rfl, _, h, closer⟩
    | long h => cases kind; unfold Symbol.pair? at h; split at h <;> cases h <;> cases closer
    | short h => cases kind; unfold Symbol.pair? at h; split at h <;> cases h <;> cases closer
    | _ => cases kind
  | own kind =>
    cases h with
    | openComment apart => cases kind; exact ⟨rfl, _, rfl, apart⟩
    | openText hquote noQuote noFeed ends => cases kind; exact ⟨ends, _, _, rfl, hquote, noQuote, noFeed⟩
    | badSuffix hc hwhole hfraction hword htail ends =>
      cases kind
      exact ⟨ends, _, _, _, _, String.toList_ofList, by rw [List.all_cons, hc, hwhole]; rfl, hfraction,
        by rw [String.toList_ofList], hword, htail⟩
    | stray h => cases kind; exact ⟨rfl, h⟩
    | _ => cases kind

namespace Scan

theorem faultSpan_of_not_overLines {fault : ScanFault} {text : List Char} (h : ¬ fault.OverLines text) (done : List Char) :
    faultSpan (({} : Position).after done) ((({} : Position).after done).after text) fault text.length =
      (({} : Position).after done).span text.length := by
  rw [← Position.after_append, Position.after_eq, Position.after_eq]
  cases fault with
  | unterminatedComment =>
    have noFeed : text.count '\n' = 0 := List.count_eq_zero.mpr fun feed => h ⟨rfl, feed⟩
    simp [faultSpan, Position.span, noFeed]
  | _ => rfl

theorem faultSpan_of_overLines {fault : ScanFault} {text : List Char} (h : fault.OverLines text) (done : List Char) :
    faultSpan (({} : Position).after done) ((({} : Position).after done).after text) fault text.length =
      ⟨1 + (done ++ text).count '\n', 1, text.length⟩ := by
  obtain ⟨rfl, feed⟩ := h
  have feeds : text.count '\n' ≠ 0 := Nat.ne_of_gt (List.count_pos_iff.mpr feed)
  rw [← Position.after_append, Position.after_eq, Position.after_eq]
  simp [faultSpan, feeds]

theorem Blames.span {position : Position} {x : Lexeme} (blamed : Blames position x f) :
    f.span = faultSpan position (position.after x.text) f.fault x.text.length := by
  cases blamed <;> rfl

theorem Blames.isAbout {done : List Char} {c : Char} {rest : List Char}
    (blamed : Blames (({} : Position).after done) (Lexeme.read c rest) f) :
    f.span.length = (Lexeme.read c rest).text.length ∧ f.IsAbout (done ++ c :: rest) done.length := by
  have offends := (Lexeme.reads_read c rest).offends blamed
  have split := Lexeme.text_append_rest c rest
  have span := blamed.span
  generalize Lexeme.read c rest = x at *
  have length : f.span.length = x.text.length := by
    rw [span]
    cases f.fault <;> rfl
  have piece : ((done ++ c :: rest).drop done.length).take f.span.length = x.text := by
    rw [List.drop_left, length, ← split, List.take_left]
  refine ⟨length, ?_, ?_, ?_, ?_⟩
  · rw [length, ← split, List.length_append, List.length_append]
    omega
  · rw [piece, length, ← split, List.drop_length_add_append, List.drop_left]
    exact offends
  all_goals rw [piece]
  · intro single
    rw [span, faultSpan_of_not_overLines single, Position.after_eq, List.take_left]
    exact ⟨rfl, rfl⟩
  · intro several
    have whole : x.text = c :: rest := by
      have : x.rest = [] := by
        rw [several.1] at offends
        exact offends.1
      rw [← split, this, List.append_nil]
    rw [span, faultSpan_of_overLines several, whole]
    exact ⟨rfl, rfl⟩

theorem Reaches.faults {keywords : KeywordTable} {source done left : List Char} {s : Scan}
    (h : Reaches keywords source s done left) :
    ∃ placed : List (LocatedScanFault × Nat), placed.map Prod.fst = s.faults ∧
      (∀ x ∈ placed, x.1.IsAbout source x.2) ∧ (∀ x ∈ placed, x.2 + x.1.span.length ≤ done.length) ∧
      placed.Pairwise fun x y => y.2 + y.1.span.length ≤ x.2 := by
  induction h with
  | start => exact ⟨[], rfl, List.forall_mem_nil _, List.forall_mem_nil _, .nil⟩
  | @step s done c rest h ih =>
    obtain ⟨placed, faults, about, inside, apart⟩ := ih
    have more : done.length ≤ (done ++ (Lexeme.read c rest).text).length := by simp
    have earlier (x) (hx : x ∈ placed) := Nat.le_trans (inside x hx) more
    obtain same | ⟨f, blamed, added⟩ := (steps_step keywords s c rest).faults_eq
    · exact ⟨placed, faults.trans same.symm, about, earlier, apart⟩
    · obtain ⟨size, isAbout⟩ := Blames.isAbout (h.position_eq ▸ blamed)
      refine ⟨(f, done.length) :: placed, ?_, ?_, ?_, .cons inside apart⟩
      · rw [added, List.map_cons, faults]
      · exact List.forall_mem_cons.mpr ⟨h.source_eq ▸ isAbout, about⟩
      · exact List.forall_mem_cons.mpr ⟨Nat.le_of_eq (by rw [List.length_append, size]), earlier⟩

end Scan

/-- **Every fault of a script is about a piece of it**, and the faults come in the order of their pieces. Each one is as
long as its piece and is shown at the first character of it, unless it is a comment over several lines. -/
theorem located_faults (keywords : KeywordTable) (source : String) :
    ∃ placed : List (LocatedScanFault × Nat), placed.map Prod.fst = (scan keywords source).faults ∧
      (∀ x ∈ placed, x.1.IsAbout source.toList x.2) ∧
      placed.Pairwise fun x y => x.2 + x.1.span.length ≤ y.2 := by
  obtain ⟨placed, faults, about, -, apart⟩ := (Scan.reaches_run keywords source.toList).faults
  refine ⟨placed.reverse, ?_, fun x hx => about x (List.mem_reverse.mp hx), List.pairwise_reverse.mpr apart⟩
  rw [List.map_reverse, faults]
  rfl

/-- A comment that starts on the first line and is never closed is shown on the second one. -/
theorem comment_misplaced : (scan .default "a #* x\ny").faults.map (fun f => (f.fault, f.span)) =
    [(.unterminatedComment, ⟨2, 1, 6⟩)] := by
  decide +kernel

end Trellis
