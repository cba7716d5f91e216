import Mathlib.Data.List.Infix
import JavaTree.Proofs.Source.Apart

/-!
The parts of a tree in a regular text are written again.

A tree that is read from a passage is written with words of its own, and these hold every name and
every literal of the passage that has not been dropped. That needs a passage in which no two dots have a
third point right behind them, and in which each list of type arguments holds nothing but types and is
closed by its last word: of other passages, some words may run together when they are written.
-/

namespace JavaTree

open JavaTree.Parser

/-! ### Arrows -/

/-- Kinds that start with an arrow, or with semicolons and an arrow behind them. -/
def StartsArrow : List Kind → Prop
  | [] => False
  | k :: ks => k = .mark .arrow ∨ (k = .mark .semicolon ∧ StartsArrow ks)

theorem StartsArrow.append {ks : List Kind} (h : StartsArrow ks) (ls : List Kind) :
    StartsArrow (ks ++ ls) := by
  induction ks with
  | nil => exact absurd h id
  | cons k ks ih => exact h.imp_right fun h => ⟨h.1, ih h.2⟩

instance decidableStartsArrow : DecidablePred StartsArrow
  | [] => .isFalse id
  | k :: ks =>
    have := decidableStartsArrow ks
    inferInstanceAs (Decidable (k = .mark .arrow ∨ (k = .mark .semicolon ∧ StartsArrow ks)))

/-- A colon, at least one semicolon, and an arrow behind them. -/
def HidesArrow : List Kind → Prop
  | k :: l :: ks => k = .mark .colon ∧ l = .mark .semicolon ∧ StartsArrow ks
  | _ => False

instance : DecidablePred HidesArrow
  | [] | [_] => .isFalse id
  | k :: l :: ks =>
    inferInstanceAs (Decidable (k = .mark .colon ∧ l = .mark .semicolon ∧ StartsArrow ks))

theorem HidesArrow.append {ks : List Kind} (h : HidesArrow ks) (ls : List Kind) : HidesArrow (ks ++ ls) := by
  rcases ks with _ | ⟨k, _ | ⟨l, ks⟩⟩
  · exact absurd h id
  · exact absurd h id
  · exact ⟨h.1, h.2.1, h.2.2.append ls⟩

/-- An arrow that is not the first behind a colon has a semicolon before it. -/
theorem hidesArrow_of_starts {ks : List Kind} (h : StartsArrow ks)
    (hfirst : ∀ k ∈ ks.head?, k ≠ .mark .arrow) : HidesArrow (.mark .colon :: ks) := by
  rcases ks with _ | ⟨k, ks⟩
  · exact absurd h id
  · obtain harrow | ⟨hsemicolon, hrest⟩ := h
    · exact absurd harrow (hfirst k rfl)
    · exact ⟨rfl, hsemicolon, hrest⟩

/-- No arrow stands behind a colon with nothing but semicolons, at least one, between them. -/
def NoHiddenArrow (ks : List Kind) : Prop := ∀ ls ∈ ks.tails, ¬ HidesArrow ls

instance (ks : List Kind) : Decidable (NoHiddenArrow ks) :=
  inferInstanceAs (Decidable (∀ ls ∈ ks.tails, ¬ HidesArrow ls))

namespace NoHiddenArrow

variable {ks ls : List Kind}

theorem left (h : NoHiddenArrow (ks ++ ls)) : NoHiddenArrow ks := by
  intro us hus hhides
  obtain ⟨pre, rfl⟩ := (List.mem_tails _ _).mp hus
  exact h (us ++ ls) ((List.mem_tails _ _).mpr ⟨pre, (List.append_assoc ..).symm⟩) (hhides.append ls)

theorem right (h : NoHiddenArrow (ks ++ ls)) : NoHiddenArrow ls := by
  intro us hus
  have hsuffix := ((List.mem_tails _ _).mp hus).trans (List.suffix_append ks ls)
  exact h us ((List.mem_tails _ _).mpr hsuffix)

end NoHiddenArrow

/-! ### Regular passages -/

/-- A passage of which no words run together when they are written. Where it is to be read again, its
lists hold nothing but types, and no arrow stands behind a colon with semicolons between them: these may be
left out, and an arrow behind a label is no start of a statement. -/
structure Passage.IsRegular (rereads : Prop) (p : Passage) : Prop where
  points : NoPoints p.words
  apart : ∀ l ∈ p.lists, Angle.StaysApart l
  types : rereads → ∀ l ∈ p.lists, Angle.IsClosed l ∧ Angle.NoClash l
  arrows : rereads → NoHiddenArrow (p.words.map Word.kind)

namespace Passage.IsRegular

variable {rereads : Prop} {p q : Passage}

theorem left (h : (p ++ q).IsRegular rereads) : p.IsRegular rereads where
  points := h.points.left
  apart := fun l hl => h.apart l (List.mem_append_left _ hl)
  types := fun hr l hl => h.types hr l (List.mem_append_left _ hl)
  arrows := fun hr => by
    have harrows := h.arrows hr
    rw [Passage.words_append, List.map_append] at harrows
    exact harrows.left

theorem right (h : (p ++ q).IsRegular rereads) : q.IsRegular rereads where
  points := h.points.right
  apart := fun l hl => h.apart l (List.mem_append_right _ hl)
  types := fun hr l hl => h.types hr l (List.mem_append_right _ hl)
  arrows := fun hr => by
    have harrows := h.arrows hr
    rw [Passage.words_append, List.map_append] at harrows
    exact harrows.right

end Passage.IsRegular

/-- There are words of the given sort that hold what is kept of a passage. -/
def Rewritten (P : List Word → Prop) (p : Passage) : Prop :=
  ∃ ws, P ws ∧ ∀ w, tally w p.words ≤ tally w ws + tally w p.left

namespace Passage

/-- Words that hold what is kept of a passage. -/
def KeptBy (p : Passage) (ws : List Word) : Prop := ∀ w, tally w p.words ≤ tally w ws + tally w p.left

variable {p q : Passage} {ws vs : List Word}

theorem keptBy_plain (ws : List Word) : (plain ws).KeptBy ws := fun _ => Nat.le_add_right _ _

theorem keptBy_of_le (h : ∀ w, tally w ws ≤ tally w vs) : (plain ws).KeptBy vs :=
  fun w => Nat.le_trans (h w) (Nat.le_add_right _ _)

theorem keptBy_append (hp : p.KeptBy ws) (hq : q.KeptBy vs) : (p ++ q).KeptBy (ws ++ vs) := by
  intro w
  have hp := hp w
  have hq := hq w
  simp
  omega

/-- Two passages with a word between them. -/
theorem keptBy_joined (hp : p.KeptBy ws) (v : Word) (hq : q.KeptBy vs) :
    (p ++ plain [v] ++ q).KeptBy (ws ++ v :: vs) := by
  have h := keptBy_append (keptBy_append hp (keptBy_plain [v])) hq
  rwa [List.append_assoc, List.singleton_append] at h

/-- Nothing is kept of what is dropped. -/
theorem keptBy_dropped (p : Passage) (ws : List Word) : p.dropped.KeptBy ws := fun _ => Nat.le_add_left _ _

theorem keptBy_behind_mark (m : Mark) (hp : p.KeptBy ws) : (plain [.mark m] ++ p).KeptBy ws :=
  fun w => by simpa using hp w

theorem keptBy_congr (hp : p.KeptBy ws) (h : ws = vs) : p.KeptBy vs := h ▸ hp

/-- A passage with words around it. -/
theorem keptBy_between (front : List Word) (hp : p.KeptBy ws) (back : List Word) :
    (plain front ++ p ++ plain back).KeptBy (front ++ ws ++ back) :=
  keptBy_append (keptBy_append (keptBy_plain front) hp) (keptBy_plain back)

end Passage

open Passage

theorem rewritten_plain {P : List Word → Prop} {ws : List Word} (h : P ws) : Rewritten P (.plain ws) :=
  ⟨ws, h, keptBy_plain ws⟩

theorem Rewritten.imp {P Q : List Word → Prop} {p : Passage} (h : Rewritten P p)
    (hPQ : ∀ ws, P ws → Q ws) : Rewritten Q p := by
  obtain ⟨ws, hws, hkeeps⟩ := h
  exact ⟨ws, hPQ ws hws, hkeeps⟩

variable {rereads : Prop}

/-! ### Lists and options -/

section Lists

variable {α : Type}

theorem EachWords.imp {P Q : α → List Word → Prop} {as : List α} {ws : List Word}
    (hPQ : ∀ a ws, P a ws → NoPoints ws → Q a ws) (h : EachWords P as ws) (hpoints : NoPoints ws) :
    EachWords Q as ws := by
  induction h with
  | nil => exact .nil
  | cons ha _ ih => exact .cons (hPQ _ _ ha hpoints.left) (ih hpoints.right)

theorem CommaWords.imp {P Q : α → List Word → Prop} {as : List α} {ws : List Word}
    (hPQ : ∀ a ws, P a ws → NoPoints ws → Q a ws) (h : CommaWords P as ws) (hpoints : NoPoints ws) :
    CommaWords Q as ws := by
  induction h with
  | one ha => exact .one (hPQ _ _ ha hpoints)
  | cons ha _ ih => exact .cons (hPQ _ _ ha hpoints.left) (ih hpoints.right.tail)

theorem OptionWords.imp {P Q : α → List Word → Prop} {o : Option α} {ws : List Word}
    (hPQ : ∀ a ws, P a ws → NoPoints ws → Q a ws) (h : OptionWords P o ws) (hpoints : NoPoints ws) :
    OptionWords Q o ws := by
  cases h with
  | none => exact .none
  | some ha => exact .some (hPQ _ _ ha hpoints)

variable {P : α → Passage → Prop} {Q : α → List Word → Prop} {p : Passage}

theorem EachFrom.rewritten {as : List α} (h : EachFrom P as p) (hp : p.IsRegular rereads)
    (hPQ : ∀ a ∈ as, ∀ p, P a p → p.IsRegular rereads → Rewritten (Q a) p) :
    Rewritten (EachWords Q as) p := by
  induction h with
  | nil => exact rewritten_plain .nil
  | cons ha _ ih =>
    obtain ⟨ws, hws, hkeeps⟩ := hPQ _ List.mem_cons_self _ ha hp.left
    obtain ⟨vs, hvs, hkeeps'⟩ := ih hp.right fun a ha => hPQ a (List.mem_cons_of_mem _ ha)
    exact ⟨ws ++ vs, .cons hws hvs, keptBy_append hkeeps hkeeps'⟩

theorem CommaFrom.rewritten {as : List α} (h : CommaFrom P as p) (hp : p.IsRegular rereads)
    (hPQ : ∀ a ∈ as, ∀ p, P a p → p.IsRegular rereads → Rewritten (Q a) p) :
    Rewritten (CommaWords Q as) p := by
  induction h with
  | one ha => exact (hPQ _ List.mem_cons_self _ ha hp).imp fun _ => .one
  | cons ha _ ih =>
    obtain ⟨ws, hws, hkeeps⟩ := hPQ _ List.mem_cons_self _ ha hp.left.left
    obtain ⟨vs, hvs, hkeeps'⟩ := ih hp.right fun a ha => hPQ a (List.mem_cons_of_mem _ ha)
    exact ⟨_, .cons hws hvs, keptBy_joined hkeeps (.mark .comma) hkeeps'⟩

theorem OptionFrom.rewritten {o : Option α} (h : OptionFrom P o p) (hp : p.IsRegular rereads)
    (hPQ : ∀ a ∈ o, ∀ p, P a p → p.IsRegular rereads → Rewritten (Q a) p) :
    Rewritten (OptionWords Q o) p := by
  cases h with
  | none => exact rewritten_plain .none
  | some ha => exact (hPQ _ rfl _ ha hp).imp fun _ => .some

end Lists

/-! ### Types -/

theorem ListFrom.mayStand {x : String} {p : Passage} (h : ListFrom x p) (hp : p.IsRegular rereads) :
    ∃ l, Angle.MayStand rereads l ∧ x = Angle.text none l ∧
      ∀ w, tally w p.words = tally w (Angle.fuse 0 l) := by
  obtain ⟨hts, hlist⟩ := h
  have happart : Angle.StaysApart _ := hp.apart _ List.mem_cons_self
  have hopen : kindOf _ = .mark .less := Angle.kindOf_of_list? hlist
  refine ⟨_, ⟨happart.isWritten hts hlist hp.points, fun hr => ?_⟩, ?_, fun w => by simp⟩
  · obtain ⟨hclosed, hclash⟩ := hp.types hr _ List.mem_cons_self
    exact hclosed.isList (fun t ht => (hts t ht).1) hopen hclash
  · rw [Angle.text_split, Angle.typeText_eq]
    · exact fun t ht => happart.unquoted _ (List.mem_map_of_mem ht)
    · intro v hv m hm
      obtain ⟨t, ht, rfl⟩ := List.mem_map.mp hv
      exact (hts t ht).1.written_of_mark hm

theorem ListFrom.rewritten {x : String} {p : Passage} (h : ListFrom x p) (hp : p.IsRegular rereads) :
    Rewritten (ParametersWords rereads x) p := by
  obtain ⟨l, hl, rfl, hkeeps⟩ := h.mayStand hp
  exact ⟨_, .mk hl rfl, fun w => by rw [hkeeps]; exact Nat.le_add_right _ _⟩

theorem parameters_rewritten {g : Option String} {p : Passage} (h : OptionFrom ListFrom g p)
    (hp : p.IsRegular rereads) : Rewritten (OptionWords (ParametersWords rereads) g) p :=
  h.rewritten hp fun _ _ _ hx hp => hx.rewritten hp

/-- The rest of a type's name as parts of it, the list behind what is known first. -/
theorem TypeRestFrom.segments {known x : String} {p : Passage} (h : TypeRestFrom known x p)
    (hp : p.IsRegular rereads) :
    ∃ (list : Option (List Word)) (further : List Segment), (∀ ws ∈ list, Angle.MayStand rereads ws) ∧
      (∀ g ∈ further, g.Holds (Angle.MayStand rereads)) ∧
      x = known ++ (list.map (Angle.text none)).getD "" ++
        String.join (further.map fun g => "." ++ g.text) ∧
      ∀ w, tally w p.words = tally w ((list.map (Angle.fuse 0)).getD [] ++
        further.flatMap fun g => .mark .dot :: g.words) := by
  have hlist {o : Option String} {p : Passage} (ho : OptionFrom ListFrom o p) (hp : p.IsRegular rereads) :
      ∃ list : Option (List Word), (∀ ws ∈ list, Angle.MayStand rereads ws) ∧
        o.getD "" = (list.map (Angle.text none)).getD "" ∧
        ∀ w, tally w p.words = tally w ((list.map (Angle.fuse 0)).getD []) := by
    cases ho with
    | none => exact ⟨none, nofun, rfl, fun _ => rfl⟩
    | some ha =>
      obtain ⟨l, hl, rfl, hkeeps⟩ := ha.mayStand hp
      exact ⟨some l, fun ws hws => by cases hws; exact hl, rfl, hkeeps⟩
  induction h with
  | done ho =>
    obtain ⟨list, hvalid, htext, hkeeps⟩ := hlist ho hp
    refine ⟨list, [], hvalid, nofun, ?_, fun w => ?_⟩
    · rw [htext]
      simp
    · rw [hkeeps]
      simp
  | @dot known x name o p q ho hx _ ih =>
    obtain ⟨list, hvalid, htext, hkeeps⟩ := hlist ho hp.left.left
    obtain ⟨list', further, hvalid', hfurther, hname, hkeeps'⟩ := ih hp.right
    refine ⟨list, ⟨x, list'⟩ :: further, hvalid, ?_, ?_, fun w => ?_⟩
    · intro g hg
      rcases List.mem_cons.mp hg with rfl | hg
      · exact ⟨hx, hvalid'⟩
      · exact hfurther g hg
    · rw [hname, htext]
      simp [Segment.text, String.append_assoc]
    · have hw := hkeeps w
      have hw' := hkeeps' w
      simp [Segment.words, Segment.listWords] at hw hw' ⊢
      omega

theorem TypeNameFrom.rewritten {x : String} {p : Passage} (h : TypeNameFrom x p)
    (hp : p.IsRegular rereads) : Rewritten (TypeNameWords (Angle.MayStand rereads) x) p := by
  cases h with
  | primitive k => exact rewritten_plain (.primitive k rfl)
  | @named first x q hx h =>
    obtain ⟨list, further, hlist, hfurther, hname, hkeeps⟩ := h.segments hp.right
    have hfirst : Segment.Holds (Angle.MayStand rereads) ⟨first, list⟩ := ⟨hx, hlist⟩
    refine ⟨_, .named hfirst hfurther hname, fun w => ?_⟩
    have hw := hkeeps w
    simp [Segment.words, Segment.listWords] at hw ⊢
    omega

theorem TypeFrom.rewritten {t : TypeUse} {p : Passage} (h : TypeFrom t p) (hp : p.IsRegular rereads) :
    Rewritten (TypeWords (Angle.MayStand rereads) t) p := by
  obtain ⟨q, hq, rfl⟩ := h
  obtain ⟨ws, hws, hkeeps⟩ := hq.rewritten hp.left
  exact ⟨_, ⟨ws, hws, rfl⟩, keptBy_append hkeeps (keptBy_plain _)⟩

theorem ReturnFrom.rewritten {t : TypeUse} {p : Passage} (h : ReturnFrom t p)
    (hp : p.IsRegular rereads) : Rewritten (ReturnWords rereads t) p := by
  cases h with
  | void => exact rewritten_plain (.void rfl rfl)
  | type h => exact (h.rewritten hp).imp fun _ => .type

theorem ClauseFrom.rewritten {k : Keyword} {ts : List TypeUse} {p : Passage} (h : ClauseFrom k ts p)
    (hp : p.IsRegular rereads) : Rewritten (ClauseWords rereads k ts) p := by
  cases h with
  | nil => exact rewritten_plain .nil
  | some h =>
    obtain ⟨ws, hws, hkeeps⟩ := h.rewritten hp.right fun _ _ _ ht hp => ht.rewritten hp
    exact ⟨_, .some hws, keptBy_append (keptBy_plain [.keyword k]) hkeeps⟩

/-! ### Excerpts -/

/-- An excerpt of readable tokens without three points in a row is written as it is. -/
theorem Excerpt.isLegible {e : Excerpt} (hreadable : ∀ t ∈ e.tokens, t.IsReadable)
    (hpoints : NoPoints e.words) : e.IsLegible := by
  refine (Spacing.writes_unfused hreadable (noPoints_written.mp hpoints)).mono fun r hr =>
    ⟨fun t ht => ?_, fun _ _ _ _ _ hdot => ?_⟩
  · have htoken := hreadable t (List.mem_of_getLast? ht)
    rcases r with _ | ⟨c, r⟩
    · exact htoken.endsBefore_separated nofun
    · obtain hc | ⟨rfl, hcolon⟩ := hr c rfl
      · exact htoken.endsBefore_separated fun d hd => by cases hd; exact hc
      · exact htoken.endsBefore_colon (hcolon t ht) r
  · -- what is behind an excerpt is no point
    obtain hc | ⟨hc, -⟩ := hr '.' hdot
    · cases hc
    · cases hc

theorem ExcerptFrom.excerptWords {rule : CaptureRule} {e : Excerpt} {ws : List Word}
    (h : ExcerptFrom rule e ws) (hpoints : NoPoints ws) : ExcerptWords rule e ws :=
  ⟨h.captured, e.isLegible h.readable (h.words ▸ hpoints), h.words⟩

theorem ParenFrom.parenWords {e : Excerpt} {ws : List Word} (h : ParenFrom e ws) (hpoints : NoPoints ws) :
    ParenWords e ws := by
  obtain ⟨vs, hvs, rfl⟩ := h
  exact ⟨vs, hvs.excerptWords hpoints.left.tail, rfl⟩

theorem ArgumentsFrom.argumentsWords {e : Excerpt} {ws : List Word} (h : ArgumentsFrom e ws)
    (hpoints : NoPoints ws) : ArgumentsWords e ws := by
  cases h with
  | empty => exact .empty
  | some h => exact .some (h.parenWords hpoints)

/-! ### Parts of declarations -/

theorem AnnotationFrom.annotationWords {a : AnnotationUse} {ws : List Word} (h : AnnotationFrom a ws)
    (hpoints : NoPoints ws) : AnnotationWords a ws := by
  obtain ⟨nw, aw, hname, hargs, rfl⟩ := h
  exact ⟨nw, aw, hname, hargs.imp (fun _ _ h => h.argumentsWords) hpoints.right, rfl⟩

theorem InitializerFrom.initializerWords {e : Excerpt} {ws : List Word} (h : InitializerFrom e ws)
    (hpoints : NoPoints ws) : InitializerWords e ws := by
  obtain ⟨vs, hvs, rfl⟩ := h
  exact ⟨vs, hvs.excerptWords hpoints.tail, rfl⟩

theorem DeclaratorFrom.declaratorWords {d : Declarator} {ws : List Word} (h : DeclaratorFrom d ws)
    (hpoints : NoPoints ws) : DeclaratorWords d ws := by
  obtain ⟨iw, hname, hinit, rfl⟩ := h
  exact ⟨iw, hname, hinit.imp (fun _ _ h => h.initializerWords) hpoints.right, rfl⟩

theorem LabelFrom.labelWords {l : CaseLabel} {ws : List Word} (h : LabelFrom l ws) (hpoints : NoPoints ws) :
    LabelWords l ws := by
  cases h with
  | value h => exact .value (h.excerptWords hpoints.left.tail)
  | default => exact .default

theorem MessageFrom.messageWords {e : Excerpt} {ws : List Word} (h : MessageFrom e ws)
    (hpoints : NoPoints ws) : MessageWords e ws := by
  obtain ⟨vs, hvs, rfl⟩ := h
  exact ⟨vs, hvs.excerptWords hpoints.tail, rfl⟩

theorem ConstantFrom.constantWords {k : EnumConstant} {ws : List Word} (h : ConstantFrom k ws)
    (hpoints : NoPoints ws) : ConstantWords k ws := by
  obtain ⟨nw, aw, hnotes, hname, hargs, rfl⟩ := h
  exact ⟨nw, aw, hnotes.imp (fun _ _ h => h.annotationWords) hpoints.left, hname,
    hargs.imp (fun _ _ h => h.argumentsWords) hpoints.right.tail, rfl⟩

/-- What has been found is kept, in its order. -/
theorem QualifiersFrom.prefix {found q : Qualifiers} {ws : List Word} (h : QualifiersFrom found q ws) :
    found.annotations <+: q.annotations ∧ found.modifiers <+: q.modifiers := by
  induction h with
  | done => exact ⟨List.prefix_refl _, List.prefix_refl _⟩
  | annotation _ _ ih => exact ⟨(List.prefix_append _ _).trans ih.1, ih.2⟩
  | modifier _ ih =>
    refine ⟨ih.1, List.IsPrefix.trans ?_ ih.2⟩
    dsimp only
    split
    · exact List.prefix_refl _
    · exact List.prefix_append _ _

/-- Annotations are written in their order, and modifiers once each. -/
theorem QualifiersFrom.qualifierWords {found q : Qualifiers} {ws : List Word}
    (h : QualifiersFrom found q ws) (hpoints : NoPoints ws) {fw : List Word}
    (hfound : EachWords AnnotationWords found.annotations fw) (hnodup : found.modifiers.Nodup) :
    ∃ aw, EachWords AnnotationWords q.annotations aw ∧ q.modifiers.Nodup ∧
      ∀ w, tally w fw + tally w ws ≤ tally w aw := by
  induction h generalizing fw with
  | done => exact ⟨fw, hfound, hnodup, fun w => Nat.le_refl _⟩
  | annotation ha _ ih =>
    have hone := ha.annotationWords hpoints.left
    obtain ⟨vs, hvs, hnodup', hkeeps⟩ := ih hpoints.right
      (hfound.append (.cons hone .nil)) hnodup
    refine ⟨vs, hvs, hnodup', fun w => ?_⟩
    have hw := hkeeps w
    simp at hw ⊢
    omega
  | @modifier found q m ws _ ih =>
    obtain ⟨vs, hvs, hnodup', hkeeps⟩ := ih hpoints.tail hfound (by
      dsimp only
      split
      · exact hnodup
      · next hm =>
        refine List.nodup_append.mpr ⟨hnodup, by simp, ?_⟩
        rintro a ha b hb rfl
        exact hm (List.mem_singleton.mp hb ▸ ha))
    exact ⟨vs, hvs, hnodup', fun w => by simpa using hkeeps w⟩

theorem QualifiersFrom.rewritten {q : Qualifiers} {ws : List Word} (h : QualifiersFrom ⟨[], []⟩ q ws)
    (hpoints : NoPoints ws) :
    ∃ vs, QualifierWords q.annotations q.modifiers vs ∧ ∀ w, tally w ws ≤ tally w vs := by
  obtain ⟨aw, has, hms, hkeeps⟩ := h.qualifierWords hpoints .nil List.nodup_nil
  exact ⟨_, .mk has hms, fun w => by simpa using hkeeps w⟩

/-- One field for each variable of a declaration, all with the same qualifiers and the same type. -/
theorem eachWords_fields {q : Qualifiers} {t : TypeUse} {span : Span} {qw nw : List Word}
    (hq : QualifierWords q.annotations q.modifiers qw) (ht : TypeNameWords (Angle.MayStand rereads) t.name nw)
    {ds : List Declarator} {dw : List Word} (h : CommaWords DeclaratorWords ds dw) :
    ∃ ws, EachWords (FieldWords rereads) (ds.map fun v => ⟨q.modifiers, q.annotations,
        { t with dimensions := t.dimensions + v.dimensions }, v.name, v.initializer, span⟩) ws ∧
      ∀ w, tally w qw + tally w nw + tally w dw ≤ tally w ws := by
  have hone {d : Declarator} {ws : List Word} (hd : DeclaratorWords d ws) :
      ∃ vs, FieldWords rereads ⟨q.modifiers, q.annotations,
          { t with dimensions := t.dimensions + d.dimensions }, d.name, d.initializer, span⟩ vs ∧
        ∀ w, tally w vs = tally w qw + tally w nw + tally w ws := by
    obtain ⟨iw, hname, hinit, rfl⟩ := hd
    refine ⟨_, ⟨qw, _, iw, hq, ⟨nw, ht, rfl⟩, hname, hinit, rfl⟩, fun w => ?_⟩
    simp
    omega
  induction h with
  | one hd =>
    obtain ⟨vs, hvs, hkeeps⟩ := hone hd
    exact ⟨_, .cons hvs .nil, fun w => by simp [hkeeps]⟩
  | cons hd _ ih =>
    obtain ⟨vs, hvs, hkeeps⟩ := hone hd
    obtain ⟨us, hus, hkeeps'⟩ := ih
    refine ⟨_, .cons hvs hus, fun w => ?_⟩
    have hw := hkeeps' w
    simp [hkeeps]
    omega

theorem FieldsFrom.rewritten {q : Qualifiers} {fs : List Field} {p : Passage} {qw : List Word}
    (hq : QualifiersFrom ⟨[], []⟩ q qw) (h : FieldsFrom q fs p) (hpoints : NoPoints qw)
    (hp : p.IsRegular rereads) : Rewritten (EachWords (FieldWords rereads) fs) (.plain qw ++ p) := by
  obtain ⟨vs, hvs, hkeeps⟩ := hq.rewritten hpoints
  obtain ⟨ht, hds⟩ := h
  obtain ⟨np, hname, rfl⟩ := ht
  obtain ⟨nw, hnw, hkeeps'⟩ := hname.rewritten hp.left.left
  obtain ⟨ws, hws, hall⟩ := eachWords_fields hvs hnw
    (hds.imp (fun _ _ h => h.declaratorWords) hp.right.points.left)
  refine ⟨ws, hws, fun w => ?_⟩
  have hw := hkeeps w
  have hw' := hkeeps' w
  have hw'' := hall w
  simp
  omega

theorem ParameterFrom.rewritten {x : Parameter} {p : Passage} (h : ParameterFrom x p)
    (hp : p.IsRegular rereads) : Rewritten (ParameterWords rereads x) p := by
  obtain ⟨hq, ht, hx⟩ := h
  rename_i q qw t tp isVariadic x n span
  obtain ⟨np, hname, rfl⟩ := ht
  obtain ⟨aw, has, -, hkeeps⟩ := hq.qualifierWords hp.left.left.points .nil List.nodup_nil
  obtain ⟨nw, hnw, hkeeps'⟩ := hname.rewritten hp.left.right.left
  refine ⟨_, ⟨_, _, .mk has ?_, ⟨nw, hnw, rfl⟩, hx, rfl⟩, fun w => ?_⟩
  · split <;> simp
  · have hw := hkeeps w
    have hw' := hkeeps' w
    cases isVariadic <;> simp at hw ⊢ <;> omega

theorem ParameterListFrom.rewritten {ps : List Parameter} {p : Passage} (h : ParameterListFrom ps p)
    (hp : p.IsRegular rereads) : Rewritten (ParameterListWords rereads ps) p := by
  cases h with
  | nil => exact rewritten_plain .nil
  | some h =>
    obtain ⟨ws, hws, hkeeps⟩ := h.rewritten hp.left.right fun _ _ _ hx hp => hx.rewritten hp
    exact ⟨_, .some hws, keptBy_between [.mark .openParen] hkeeps _⟩

end JavaTree
