import Mathlib.Data.List.Perm.Basic
import JavaTree.Outline
import JavaTree.Proofs.Leaves

/-!
The excerpts that a walk through a tree meets.

A walk does not look into the arguments of annotations and of enum constants. All other excerpts of a tree
are met, each of them once. They are met in the order of the text, in which the body of a `do` stands before
its condition, and not in the order in which a tree holds them.

    text       do { f(a); } while (b);
    held       b   f(a)
    met        f(a)   b
-/

namespace JavaTree

@[simp] theorem flatMap_nothing {α β : Type} (as : List α) : as.flatMap (fun _ => ([] : List β)) = [] :=
  List.flatMap_eq_nil_iff.mpr fun _ _ => rfl

/-- The excerpt that is met, if it is one. -/
def Sight.excerpt? : Sight → Option Excerpt
  | excerpt e => some e
  | _ => none

/-- The excerpt in the place of an expression, if it stands for one and not for arguments. -/
def Capture.expression? : Capture → Option Excerpt
  | expression e => some e
  | arguments _ => none

/-- The excerpt that a leaf is, if it stands for an expression. -/
def Leaf.expression? (l : Leaf) : Option Excerpt := l.capture?.bind Capture.expression?

/-- The excerpts among what is met. -/
def Outline.excerpts (es : List OutlineEntry) : List Excerpt := es.filterMap (·.sight.excerpt?)

/-- The excerpts among captures, but for the arguments of annotations and of enum constants. -/
def Capture.expressions (xs : List Capture) : List Excerpt := xs.filterMap expression?

/-- The excerpts among leaves, but for the arguments of annotations and of enum constants. -/
def Leaf.expressions (ls : List Leaf) : List Excerpt := ls.filterMap expression?

namespace Outline

/-! ### What is met besides statements -/

@[simp] theorem excerpts_nil : excerpts [] = [] := rfl

@[simp] theorem excerpts_append (es fs : List OutlineEntry) :
    excerpts (es ++ fs) = excerpts es ++ excerpts fs :=
  List.filterMap_append

@[simp] theorem excerpts_statement (d : Nat) (s : Statement) (es : List OutlineEntry) :
    excerpts (⟨d, .statement s⟩ :: es) = excerpts es := rfl

@[simp] theorem excerpts_unit (d : Nat) (u : CompilationUnit) (es : List OutlineEntry) :
    excerpts (⟨d, .unit u⟩ :: es) = excerpts es := rfl

@[simp] theorem excerpts_flatMap {α : Type} (as : List α) (f : α → List OutlineEntry) :
    excerpts (as.flatMap f) = as.flatMap fun a => excerpts (f a) := by
  rw [excerpts, List.filterMap_flatMap]
  rfl

/-- Sights that are no excerpts. -/
theorem excerpts_map {α : Type} (as : List α) {f : α → OutlineEntry}
    (h : ∀ a, (f a).sight.excerpt? = none) : excerpts (as.map f) = [] := by
  rw [excerpts, List.filterMap_map, List.filterMap_eq_nil_iff]
  exact fun a _ => h a

@[simp] theorem excerpts_annotations (d : Nat) (as : List AnnotationUse) :
    excerpts (annotations d as) = [] :=
  excerpts_map as fun _ => rfl

@[simp] theorem excerpts_type (d : Nat) (t : TypeUse) : excerpts (type d t) = [] := rfl

@[simp] theorem excerpts_excerpt (d : Nat) (e : Excerpt) : excerpts (excerpt d e) = [e] := rfl

@[simp] theorem excerpts_excerpt? (d : Nat) (e : Option Excerpt) :
    excerpts (excerpt? d e) = e.toList := by
  cases e <;> rfl

@[simp] theorem excerpts_declarators (d : Nat) (ds : List Declarator) :
    excerpts (declarators d ds) = ds.flatMap (·.initializer.toList) := by
  simp [declarators]

@[simp] theorem excerpts_declaration (d : Nat) (t : TypeUse) (ds : List Declarator) :
    excerpts (declaration d t ds) = ds.flatMap (·.initializer.toList) := by
  simp [declaration]

@[simp] theorem excerpts_field (d : Nat) (f : Field) : excerpts (field d f) = f.initializer.toList := by
  simp [field]

@[simp] theorem excerpts_parameter (d : Nat) (p : Parameter) : excerpts (parameter d p) = [] := by
  simp [parameter]

@[simp] theorem excerpts_constants (d : Nat) (h : TypeHeader) : excerpts (constants d h) = [] := by
  cases h with
  | enum_ interfaces cs => exact excerpts_map cs fun _ => rfl
  | class_ | interface_ => rfl

end Outline

/-! ### What is held in a tree -/

namespace Leaf

@[simp] theorem expressions_nil : expressions [] = [] := rfl

@[simp] theorem expressions_cons (e : Excerpt) (ls : List Leaf) :
    expressions (expression e :: ls) = e :: expressions ls := rfl

@[simp] theorem expressions_cons_type (t : TypeUse) (ls : List Leaf) :
    expressions (type t :: ls) = expressions ls := rfl

@[simp] theorem expressions_append (ls ms : List Leaf) :
    expressions (ls ++ ms) = expressions ls ++ expressions ms :=
  List.filterMap_append

@[simp] theorem expressions_flatMap {α : Type} (as : List α) (f : α → List Leaf) :
    expressions (as.flatMap f) = as.flatMap fun a => expressions (f a) := by
  rw [expressions, List.filterMap_flatMap]
  rfl

@[simp] theorem expressions_toList (e : Option Excerpt) :
    expressions (e.toList.map expression) = e.toList := by
  cases e <;> rfl

/-- Leaves that stand for no expressions. -/
theorem expressions_map {α : Type} (as : List α) {f : α → Leaf} (h : ∀ a, (f a).expression? = none) :
    expressions (as.map f) = [] := by
  rw [expressions, List.filterMap_map, List.filterMap_eq_nil_iff]
  exact fun a _ => h a

@[simp] theorem expressions_arguments (es : List Excerpt) : expressions (es.map arguments) = [] :=
  expressions_map es fun _ => rfl

@[simp] theorem expressions_types (ts : List TypeUse) : expressions (ts.map type) = [] :=
  expressions_map ts fun _ => rfl

@[simp] theorem expressions_parameters (xs : List String) : expressions (xs.map parameters) = [] :=
  expressions_map xs fun _ => rfl

@[simp] theorem expressions_annotationUse (a : AnnotationUse) : expressions a.leaves = [] :=
  expressions_arguments _

@[simp] theorem expressions_field (f : Field) : expressions f.leaves = f.initializer.toList := by
  simp [Field.leaves]

@[simp] theorem expressions_declarator (d : Declarator) : expressions d.leaves = d.initializer.toList :=
  expressions_toList _

@[simp] theorem expressions_parameter (p : Parameter) : expressions p.leaves = [] := by
  simp [Parameter.leaves]

@[simp] theorem expressions_constant (c : EnumConstant) : expressions c.leaves = [] := by
  simp [EnumConstant.leaves]

@[simp] theorem expressions_header (h : TypeHeader) : expressions h.leaves = [] := by
  cases h <;> simp [TypeHeader.leaves]

end Leaf

theorem CompilationUnit.expressions_captures (u : CompilationUnit) :
    Capture.expressions u.captures = Leaf.expressions u.leaves :=
  List.filterMap_filterMap

/-! ### Each excerpt is met once -/

namespace Outline

open Leaf

@[simp] theorem excerpts_label (d : Nat) (l : CaseLabel) :
    excerpts (label d l) = expressions l.leaves := by
  cases l <;> rfl

mutual

/-- The excerpts met in a statement are those that it holds. -/
theorem perm_statement (d : Nat) : ∀ s : Statement,
    (excerpts (statement d s)).Perm (expressions s.leaves)
  | .declaration .. | .field _ | .assert .. | .return_ .. | .expression .. | .throw_ .. | .break_ ..
  | .continue_ .. => by simp [statement, Statement.leaves]
  | .if_ _ t e _ => by
    simpa [statement, Statement.leaves] using
      (perm_statement (d + 1) t).append (perm_statement? (d + 1) e)
  | .for_ _ b _ | .while_ _ b _ | .labeled _ b _ => by
    simpa [statement, Statement.leaves] using perm_statement (d + 1) b
  | .doWhile b e _ => by
    -- the condition stands behind the body, and is held before it
    have hbody := (perm_statement (d + 1) b).append_right [e]
    simpa [statement, Statement.leaves] using hbody.trans List.perm_append_comm
  | .try_ b cs f _ => by
    simpa [statement, Statement.leaves] using
      (perm_block (d + 1) b).append ((perm_catchClauses (d + 1) cs).append (perm_block? (d + 1) f))
  | .block b => by simpa [statement, Statement.leaves] using perm_block (d + 1) b
  | .switch _ cs _ => by simpa [statement, Statement.leaves] using perm_switchCases (d + 1) cs
  | .synchronized _ b _ => by simpa [statement, Statement.leaves] using perm_block (d + 1) b

theorem perm_statement? (d : Nat) : ∀ s : Option Statement,
    (excerpts (statement? d s)).Perm (expressions (Statement.elseLeaves s))
  | none => .refl _
  | some s => perm_statement d s

theorem perm_statements (d : Nat) : ∀ ss : List Statement,
    (excerpts (statements d ss)).Perm (expressions (Statement.allLeaves ss))
  | [] => .refl _
  | s :: ss => by
    simpa [statements, Statement.allLeaves] using (perm_statement d s).append (perm_statements d ss)

theorem perm_block (d : Nat) : ∀ b : Block, (excerpts (block d b)).Perm (expressions b.leaves)
  | ⟨ss, _⟩ => by simpa [block, Block.leaves] using perm_statements d ss

theorem perm_block? (d : Nat) : ∀ b : Option Block,
    (excerpts (block? d b)).Perm (expressions (Block.finallyLeaves b))
  | none => .refl _
  | some b => perm_block d b

theorem perm_catchClauses (d : Nat) : ∀ cs : List CatchClause,
    (excerpts (catchClauses d cs)).Perm (expressions (CatchClause.allLeaves cs))
  | [] => .refl _
  | ⟨e, b, _⟩ :: cs => by
    simpa [catchClauses, catchClause, CatchClause.allLeaves] using
      (perm_block d b).append (perm_catchClauses d cs)

theorem perm_switchCases (d : Nat) : ∀ cs : List SwitchCase,
    (excerpts (switchCases d cs)).Perm (expressions (SwitchCase.allLeaves cs))
  | [] => .refl _
  | ⟨ls, ss, _⟩ :: cs => by
    simpa [switchCases, switchCase, SwitchCase.allLeaves] using
      ((perm_statements d ss).append (perm_switchCases d cs)).append_left _

end

theorem perm_member (d : Nat) (m : Member) : (excerpts (member d m)).Perm (expressions m.leaves) := by
  cases m with
  | field f => simp [member, Member.leaves]
  | method m =>
    have hbody : (excerpts (block? d m.body)).Perm (expressions (m.body.toList.flatMap (·.leaves))) := by
      cases m.body with
      | none => exact .refl _
      | some b => simpa [block?] using perm_block d b
    simpa [member, method, Member.leaves] using hbody
  | constructor c => simpa [member, constructor, Member.leaves] using perm_block d c.body
  | initializer i => exact perm_block d i.body

/-- The excerpts met in a type are those that it holds. -/
theorem perm_typeDeclaration (d : Nat) (t : TypeDeclaration) :
    (excerpts (typeDeclaration d t)).Perm (expressions t.leaves) := by
  have hmembers : (t.members.flatMap fun m => excerpts (member d m)).Perm
      (t.members.flatMap fun m => expressions m.leaves) :=
    .flatMap_left _ fun m _ => perm_member d m
  simpa [typeDeclaration, TypeDeclaration.leaves] using hmembers

/-- The excerpts met in a unit are those that it holds. -/
theorem perm_unit (d : Nat) (u : CompilationUnit) :
    (excerpts (unit d u)).Perm (Capture.expressions u.captures) := by
  have htypes : (u.types.flatMap fun t => excerpts (typeDeclaration d t)).Perm
      (u.types.flatMap fun t => expressions t.leaves) :=
    .flatMap_left _ fun t _ => perm_typeDeclaration d t
  have hpackage : excerpts (u.package.toList.map fun p => ⟨d, .package p⟩) = [] :=
    excerpts_map _ fun _ => rfl
  have himports : excerpts (u.imports.map fun i => ⟨d, .import_ i⟩) = [] := excerpts_map _ fun _ => rfl
  simpa [unit, hpackage, himports, u.expressions_captures, CompilationUnit.leaves] using htypes

end Outline

end JavaTree
