import FuncScript.Proofs.Discipline

/-!
Properties that a plan has when its parts have them. Where single characters have one, so have all
plans of the grammar but those for blocks: these look ahead and ask for their place, and have it
where that has it too.
-/

namespace FuncScript

def CharClass.named : List CharClass :=
  [digit, nonzeroDigit, nameStart, nameContinue, hexDigit, simpleEscape, printable]

namespace Plan

variable {α β : Type} {Q R : {α : Type} → Plan α → Prop}

def breaks : List Char := ['\n', '\r']

/-- A plan has the property if its parts have it. The characters of the grammar have it, none of
which breaks a line. -/
structure Compositional (Q : {α : Type} → Plan α → Prop) : Prop where
  pure : ∀ {α : Type} (a : α), Q (.pure a)
  not_finite : Q (.fail (.other "finite number") : Plan Binary64)
  literal : ∀ {c : Char}, c ∉ breaks → Q (literal c)
  oneOf : ∀ {k : CharClass}, k ∈ CharClass.named → Q (oneOf k)
  letter : ∀ (k : Keyword), ∀ c ∈ k.letters, Q (Plan.oneOf (.letter c))
  blanks : Q .blanks
  bind : ∀ {α β : Type} {p : Plan α} {f : α → Plan β}, Q p → (∀ a, Q (f a)) → Q (.bind p f)
  attempt : ∀ {α : Type} {p : Plan α}, Q p → Q (.attempt p)
  optional : ∀ {α : Type} {p : Plan α}, Q p → Q (.optional p)
  many : ∀ {α : Type} {p : Plan α}, Q p → p.Moves → Q (.many p)
  orElse : ∀ {α : Type} {p p' : Plan α}, Q p → Q p' → Q (.orElse p p')
  last : ∀ {α : Type} {p : Plan α}, Q p → Q (.orElse p .never)

namespace Compositional

theorem forall_of {ι : Sort _} {Q : ι → {α : Type} → Plan α → Prop}
    (h : ∀ i, Compositional (Q i)) : Compositional fun p => ∀ i, Q i p where
  pure a i := (h i).pure a
  not_finite i := (h i).not_finite
  literal hc i := (h i).literal hc
  oneOf hk i := (h i).oneOf hk
  letter k c hc i := (h i).letter k c hc
  blanks i := (h i).blanks
  bind hp hf i := (h i).bind (hp i) fun a => hf a i
  attempt hp i := (h i).attempt (hp i)
  optional hp i := (h i).optional (hp i)
  many hp hm i := (h i).many (hp i) hm
  orElse hp hp' i := (h i).orElse (hp i) (hp' i)
  last hp i := (h i).last (hp i)

variable (hQ : Compositional Q)
include hQ

theorem map {p : Plan α} {g : α → β} (h : Q p) : Q (map g p) := hQ.bind h fun a => hQ.pure (g a)

theorem before {p : Plan α} {p' : Plan β} (h : Q p) (h' : Q p') : Q (before p p') :=
  hQ.bind h fun _ => h'

theorem blanks_before {p : Plan α} (h : Q p) : Q (Plan.before .blanks p) := hQ.before hQ.blanks h

theorem choice : ∀ {ps : List (Plan α)}, ps ≠ [] → (∀ p ∈ ps, Q p) → Q (choice ps)
  | [], h, _ => absurd rfl h
  | [_], _, h => hQ.last (h _ List.mem_cons_self)
  | _ :: p :: ps, _, h => by
    obtain ⟨hfirst, hrest⟩ := List.forall_mem_cons.mp h
    exact hQ.orElse hfirst (choice (List.cons_ne_nil p ps) hrest)

theorem letters : ∀ cs : List Char, (∀ c ∈ cs, Q (Plan.oneOf (.letter c))) → Q (letters cs)
  | [], _ => hQ.pure ()
  | _ :: cs, h => by
    obtain ⟨hc, hcs⟩ := List.forall_mem_cons.mp h
    exact hQ.before hc (letters cs hcs)

theorem keyword (k : Keyword) : Q (keyword k) := hQ.attempt (hQ.letters k.letters (hQ.letter k))

theorem run {k k' : CharClass} (f : Char → List Char → β) (h : k ∈ CharClass.named)
    (h' : k' ∈ CharClass.named) : Q (run k k' f) :=
  hQ.bind (hQ.oneOf h) fun _ => hQ.map (hQ.many (hQ.oneOf h') (moves_oneOf k'))

theorem name : Q name := hQ.run _ (by decide) (by decide)

theorem numeral : Q numeral := by
  have hwhole : Q wholeDigits :=
    hQ.orElse (hQ.map (hQ.literal (by decide))) (hQ.run _ (by decide) (by decide))
  have hfraction : Q fractionDigits :=
    hQ.attempt (hQ.before (hQ.literal (by decide)) (hQ.run _ (by decide) (by decide)))
  have hsign : Q (Plan.optional (Plan.literal '-')) := hQ.optional (hQ.literal (by decide))
  exact hQ.bind hsign fun _ => hQ.bind hwhole fun _ => hQ.map (hQ.optional hfraction)

theorem finite (x : Grammar.Numeral) : Q (finite x) := by
  unfold Plan.finite
  split
  · exact hQ.pure x.value
  · exact hQ.not_finite

theorem number : Q number := hQ.attempt (hQ.bind hQ.numeral hQ.finite)

theorem escape : Q escape := by
  have hhex : Q (Plan.oneOf .hexDigit) := hQ.oneOf (by decide)
  have hunit : Q Plan.unit := hQ.before (hQ.literal (by decide)) <|
    hQ.bind hhex fun _ => hQ.bind hhex fun _ => hQ.bind hhex fun _ => hQ.map hhex
  have hsimple : Q simpleEscape := hQ.map (hQ.oneOf (by decide))
  exact hQ.attempt (hQ.before (hQ.literal (by decide)) (hQ.orElse hsimple hunit))

theorem string : Q string := by
  have hquote : Q (Plan.literal '"') := hQ.literal (by decide)
  have hplain : Q plain := by
    apply hQ.choice (List.cons_ne_nil _ _)
    simp only [List.forall_mem_cons, List.not_mem_nil, false_implies, implies_true, and_true]
    exact ⟨hQ.oneOf (by decide), hQ.literal (by decide), hQ.literal (by decide)⟩
  have hfragment : Q fragment := hQ.orElse (hQ.map hQ.escape) (hQ.map hplain)
  exact hQ.attempt <| hQ.blanks_before <| hQ.before hquote <|
    hQ.bind (hQ.many hfragment moves_fragment) fun _ => hQ.map hquote

theorem boolean : Q boolean := hQ.orElse (hQ.map (hQ.keyword .yes)) (hQ.map (hQ.keyword .no))

theorem comma : Q comma := hQ.blanks_before (hQ.before (hQ.literal (by decide)) hQ.blanks)

theorem separated {item : Plan α} (h : Q item) : Q (separated Plan.comma item) := by
  refine hQ.bind (hQ.optional h) ?_
  rintro (_ | first)
  · exact hQ.pure []
  · have hmore := hQ.attempt (hQ.before hQ.comma h)
    exact hQ.map (hQ.many hmore (moves_attempt (moves_bind_left moves_comma)))

theorem pair {value : Plan α} (h : Q value) : Q (pair value) :=
  hQ.attempt <| hQ.blanks_before <| hQ.bind hQ.name fun _ => hQ.blanks_before <|
    hQ.before (hQ.literal (by decide)) <| hQ.blanks_before (hQ.map h)

theorem metadata : Q metadata :=
  hQ.attempt <| hQ.blanks_before <| hQ.before (hQ.literal (by decide)) <|
    hQ.bind hQ.name fun _ => hQ.blanks_before <| hQ.before (hQ.literal (by decide)) <|
      hQ.map hQ.string

theorem annotations : Q annotations := by
  have hcomma : Q (Plan.literal ',') := hQ.literal (by decide)
  have hmore := hQ.attempt (hQ.blanks_before (hQ.before hcomma hQ.metadata))
  have hmoves : (Plan.attempt <| Plan.before .blanks <| (Plan.literal ',').before .metadata).Moves :=
    moves_attempt (moves_bind_right fun _ => moves_bind_left (moves_literal ','))
  exact hQ.attempt <| hQ.bind hQ.metadata fun _ => hQ.bind (hQ.many hmore hmoves) fun _ =>
    hQ.blanks_before (hQ.map (hQ.literal (by decide)))

section

variable (hR : Compositional R) (hguard : ∀ {α : Type} {p : Plan α}, R p → Q (.nested p))
include hR hguard

omit hQ in
theorem enclosed {opening closing : Char} {item : Plan α} (ho : opening ∉ breaks)
    (hc : closing ∉ breaks) (h : R item) : Q (enclosed opening closing item) :=
  hguard <| hR.attempt <| hR.blanks_before <| hR.before (hR.literal ho) <| hR.blanks_before <|
    hR.bind (hR.separated h) fun _ => hR.blanks_before (hR.map (hR.literal hc))

theorem object {value : Plan α} (h : R value) : Q (object value) :=
  hQ.map (enclosed hR hguard (by decide) (by decide) (hR.pair h))

omit hQ in
theorem array {value : Plan α} (h : R value) : Q (array value) :=
  enclosed hR hguard (by decide) (by decide) h

theorem alternatives {inner : Plan Value} (h : R inner) :
    Q (Plan.choice (alternatives inner)) := by
  apply hQ.choice (List.cons_ne_nil _ _)
  simp only [List.forall_mem_cons, List.not_mem_nil, false_implies, implies_true, and_true]
  exact ⟨hQ.map (hQ.object hR hguard h), hQ.map (array hR hguard h), hQ.map hQ.number,
    hQ.map hQ.string, hQ.map hQ.boolean⟩

end

theorem valueWithin (hguard : ∀ {α : Type} {p : Plan α}, Q p → Q (.nested p))
    (hnever : Q (.never : Plan Value)) : ∀ n, Q (valueWithin n)
  | 0 => hQ.alternatives hQ hguard hnever
  | n + 1 => hQ.alternatives hQ hguard (valueWithin hguard hnever n)

section

variable (hahead : ∀ k, Q (.notAhead (.keyword k))) (hany : Q anyChar)
include hahead hany

theorem bodyChar : Q bodyChar :=
  hQ.attempt (hQ.before (hahead .blockBegin) (hQ.before (hahead .blockEnd) hany))

theorem blockAround (hguard : ∀ {p : Plan Span}, Q p → Q (.nested p)) (hcursor : Q .cursor)
    {inner : Plan Span} (h : Q inner) (hm : inner.Moves) : Q (blockAround inner) := by
  have hstep : Q (.orElse (Plan.map (fun _ => ()) inner) (Plan.map (fun _ => ()) .bodyChar)) :=
    hQ.orElse (hQ.map h) (hQ.map (hQ.bodyChar hahead hany))
  have hbody := hQ.many hstep ⟨moves_bind_left hm, moves_bind_left moves_bodyChar⟩
  exact hguard <| hQ.attempt <| hQ.before (hQ.keyword .blockBegin) <| hQ.bind hcursor fun _ =>
    hQ.before hbody <| hQ.bind hcursor fun _ => hQ.map (hQ.keyword .blockEnd)

theorem blockWithin (hguard : ∀ {p : Plan Span}, Q p → Q (.nested p)) (hcursor : Q .cursor)
    (hnever : Q (.never : Plan Span)) : ∀ n, Q (blockWithin n)
  | 0 => hQ.blockAround hahead hany hguard hcursor hnever trivial
  | n + 1 => hQ.blockAround hahead hany hguard hcursor (blockWithin hguard hcursor hnever n)
      (moves_block n)

end

end Compositional

end Plan

end FuncScript
