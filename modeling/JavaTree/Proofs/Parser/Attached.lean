import JavaTree.Proofs.Parser.Capped
import JavaTree.Proofs.Reread.Statements
import JavaTree.Proofs.Written.Statements

/-!
No `else` dangles.

The first branch of an `if` is written without braces of its own. If it ended in an `if` without
`else`, an `else` behind it would go to that one when the text is read again. No such branch is ever
read, whatever the tokens are: the inner `if` has looked for an `else` before the outer one does.

    if (a)              if (a)
        while (b)           while (b)
            f();                if (c)
    else                            f();
        g();            else                    never a tree: this `else` goes to the inner `if`
                            g();
-/

namespace JavaTree.Parser

/-- As the first branch of an `if`, a statement leaves an `else` behind it alone. Behind the head of
the `if`, its lines spell its words. Read from these words, with an `else` behind them, it ends in
front of the `else`. -/
def LeavesElse (t : Statement) : Prop :=
  ∀ n ws, (wordsAt True n).statement t ws →
    (∀ (layout : Layout) (style : BraceStyle) (head : String) (hw : List Word),
      layout.problem? = none → Writes head hw Separated → head ≠ "" →
      LinesWrite layout (t.lines style (.body head)) (hw ++ ws)) ∧
    ∀ (c : Settings) (s : State) (levels : Nat) (rest : List Token), n ≤ levels →
      Begins s.rest ws rest → kindOf rest = .keyword .else_ →
      Yields c s (statement levels) rest (AlikeStatement · t)

/-- A statement that could take no `else` leaves it alone. -/
theorem leavesElse {t : Statement} (ht : ¬ t.EndsOpen) : LeavesElse t := by
  intro n ws hws
  constructor
  · intro layout style head hw hlayout hhead hne
    exact (innerWrites_wordsAt hlayout style n).statement t ws hws _ _ (.body hhead hne)
  · intro c s levels rest hlevels hs helse
    refine (rereads_readersAt hlevels).statement hws hs ⟨?_, ?_, fun hopen => absurd hopen ht⟩ <;>
      rw [helse] <;> exact nofun

namespace Input

/-- In a tree that is read from tokens, whatever these are, the first branch of an `if` with `else`
never ends in an `if` without one. So wherever it is written without braces, the `else` behind it is
left to the `if` it belongs to. -/
theorem no_dangling_else (ts : List Token) (faults : List Fault) (options : ParseOptions)
    {t : TypeDeclaration} (ht : t ∈ ((given ts faults).parse options).unit.types) {m : Member}
    (hm : m ∈ t.members) {b : Block} (hb : b ∈ m.body?) {condition : Excerpt}
    {thenBranch elseBranch : Statement} {span : Span}
    (hs : b.Contains (.if_ condition thenBranch (some elseBranch) span)) :
    ¬ thenBranch.EndsOpen ∧ LeavesElse thenBranch := by
  have hfits := (typeFits_parse (given ts faults) options t ht).fits m hm b hb
  have hattached : ¬ thenBranch.EndsOpen := attached_of_contains hfits hs
  exact ⟨hattached, leavesElse hattached⟩

/-- `class A { { if (x) if (x) x; else x; else x; } }`: the first `else` goes to the inner `if`, the
second one to the outer `if`. -/
theorem no_dangling_else_nested :
    let ts := tokensOf [.keyword .class_, .identifier, .mark .openBrace, .mark .openBrace,
      .keyword .if_, .mark .openParen, .identifier, .mark .closeParen,
      .keyword .if_, .mark .openParen, .identifier, .mark .closeParen, .identifier, .mark .semicolon,
      .keyword .else_, .identifier, .mark .semicolon, .keyword .else_, .identifier, .mark .semicolon,
      .mark .closeBrace, .mark .closeBrace]
    ∃ t ∈ ((given ts []).parse {}).unit.types, ∃ m ∈ t.members, ∃ b ∈ m.body?,
      ∃ condition thenBranch elseBranch span,
        b.Contains (.if_ condition thenBranch (some elseBranch) span) ∧
          thenBranch.branches.length = 2 ∧ ¬ thenBranch.EndsOpen := by
  intro ts
  obtain ⟨t, m, b, condition, thenBranch, elseBranch, span, ht, hm, hb, hs, hbranches⟩ :
      ∃ t m b condition thenBranch elseBranch span,
        ((given ts []).parse {}).unit.types = [t] ∧ t.members = [m] ∧ m.body? = some b ∧
          b.statements = [.if_ condition thenBranch (some elseBranch) span] ∧
            thenBranch.branches.length = 2 := ⟨_, _, _, _, _, _, _, rfl, rfl, rfl, rfl, rfl⟩
  have ht : t ∈ ((given ts []).parse {}).unit.types := by simp [ht]
  have hm : m ∈ t.members := by simp [hm]
  have hin : b.Contains (.if_ condition thenBranch (some elseBranch) span) := ⟨_, by simp [hs], .refl⟩
  exact ⟨t, ht, m, hm, b, hb, condition, thenBranch, elseBranch, span, hin, hbranches,
    (no_dangling_else ts [] {} ht hm hb hin).1⟩

end Input

end JavaTree.Parser
