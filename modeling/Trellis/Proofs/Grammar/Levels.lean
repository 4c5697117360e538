import Trellis.Proofs.Grammar.Lists

/-!
# Levels

Expressions are read on six levels, from the loosest, 1, to the tightest, 6. A token that goes on with an
expression does so on one of the levels, which is its *bond*; other tokens have the bond 0. An expression of
a level ends where the bond of the next token is below the level, and then it is also an expression of every
looser level above that bond (`Gives.loosen`).
-/

namespace Trellis

open Token (next)

def Terminal.bond : Terminal → Nat
  | .symbol .dot => 6
  | .symbol .leftBracket => 6
  | .symbol .leftParen => 6
  | .symbol .dotDot => 5
  | .symbol .plus => 4
  | .symbol .minus => 4
  | .symbol .star => 4
  | .symbol .slash => 4
  | .symbol .percent => 4
  | .symbol .equal => 3
  | .symbol .notEqual => 3
  | .symbol .assign => 3
  | .symbol .less => 2
  | .symbol .lessEqual => 2
  | .symbol .greater => 2
  | .symbol .greaterEqual => 2
  | .symbol .question => 1
  | _ => 0

def Parse.level : Nat → Rules → Parse Expr
  | 6 => Parse.operand
  | 5 => Parse.range
  | 4 => Parse.sum
  | 3 => Parse.equality
  | 2 => Parse.comparison
  | _ => Parse.expression

theorem Parse.arithmetic?_eq_none {t : Terminal} (h : t.bond ≠ 4) : Parse.arithmetic? t = none := by
  cases t with
  | symbol s => cases s <;> first | rfl | exact absurd rfl h
  | _ => rfl

theorem Parse.comparison?_eq_none {t : Terminal} (h : t.bond ≠ 2) : Parse.comparison? t = none := by
  cases t with
  | symbol s => cases s <;> first | rfl | exact absurd rfl h
  | _ => rfl

namespace Gives

variable {d : Dialect} {r : Rules} {ts rest : List Token} {P : Expr → Prop}

theorem range_of_operand (h : Gives d (Parse.operand r) ts P rest) (hnext : (next rest).bond ≠ 5) :
    Gives d (Parse.range r) ts P rest := by
  refine .bind h fun e he => .accept?_none (fun hdots => hnext ?_) (.pure he)
  rw [hdots]
  rfl

theorem sum_of_range (h : Gives d (Parse.range r) ts P rest) (hnext : (next rest).bond ≠ 4) :
    Gives d (Parse.sum r) ts P rest := by
  refine .bind h fun e he => .peek fun t ht => ?_
  rw [Token.terminal_of_bare ht, Token.terminal_peek, Parse.arithmetic?_eq_none hnext]
  exact .pure he

theorem equality_of_sum (h : Gives d (Parse.sum r) ts P rest) (hnext : (next rest).bond ≠ 3) :
    Gives d (Parse.equality r) ts P rest := by
  refine .bind h fun e he => .peek fun t ht => ?_
  rw [Token.terminal_of_bare ht, Token.terminal_peek]
  split <;> first | exact .pure he | (rename_i heq; exact absurd (by rw [heq]; rfl) hnext)

theorem comparison_of_equality (h : Gives d (Parse.equality r) ts P rest)
    (hnext : (next rest).bond ≠ 2) : Gives d (Parse.comparison r) ts P rest := by
  refine .bind h fun e he => .peek fun t ht => ?_
  rw [Token.terminal_of_bare ht, Token.terminal_peek, Parse.comparison?_eq_none hnext]
  exact .pure he

theorem expression_of_comparison (h : Gives d (Parse.comparison r) ts P rest)
    (hnext : (next rest).bond ≠ 1) : Gives d (Parse.expression r) ts P rest := by
  refine .bind h fun e he => .accept?_none (fun hquestion => hnext ?_) (.pure he)
  rw [hquestion]
  rfl

theorem loosen_one {k : Nat} (hlow : 1 ≤ k) (hhigh : k ≤ 5)
    (h : Gives d (Parse.level (k + 1) r) ts P rest) (hnext : (next rest).bond ≠ k) :
    Gives d (Parse.level k r) ts P rest := by
  have hcases : k = 1 ∨ k = 2 ∨ k = 3 ∨ k = 4 ∨ k = 5 := by omega
  rcases hcases with rfl | rfl | rfl | rfl | rfl
  · exact expression_of_comparison h hnext
  · exact comparison_of_equality h hnext
  · exact equality_of_sum h hnext
  · exact sum_of_range h hnext
  · exact range_of_operand h hnext

theorem loosen {k l : Nat} (hkl : k ≤ l) (hl : l ≤ 6) (h : Gives d (Parse.level l r) ts P rest)
    (hnext : (next rest).bond < k) : Gives d (Parse.level k r) ts P rest := by
  induction l with
  | zero => exact absurd hnext (by omega)
  | succ l ih =>
    rcases Nat.lt_or_ge l k with hlt | hge
    · obtain rfl : k = l + 1 := by omega
      exact h
    · exact ih hge (by omega) (loosen_one (by omega) (by omega) h (by omega))

end Gives

end Trellis
