import FuncScript.Proofs.Levels
import FuncScript.Proofs.Nesting.Crossing
import FuncScript.Proofs.Nesting.Limit

/-!
Values where fewer levels are left than they need. The rule for an item fails at the first container
that lies too deep; the list around it is given up, since neither a comma nor its end stands where
the item does, and so on outwards.
-/

namespace FuncScript.Nesting

open Phrase (IsBlank bind_iff bind_pure_iff bind_mk symbol_bind_iff)
open Rule (Halts Passes Trips Stumbles Fails GoesOnNumber passes_blanks passes_literal)

variable {α : Type} {d n M : Nat} {s : State} {w y e : List Char} {marks : List Opening}
  {opening closing c : Char}

/-- A word of the configuration, with all that opens in it. Where so many levels are left it is also
a word of the phrase for them, or the rule for them fails at the first container that lies too
deep. -/
structure Weighed (d : Nat) (r : Nat → Rule α) (L : Nat → Phrase α) (w : List Char) (a : α)
    (marks : List Opening) : Prop where
  crosses : ∀ y, Crosses (.fields d) w y marks (.fields d)
  judged : ∀ n s y, s.Room d n → s.rest = w ++ y → (∀ c t, y = c :: t → ¬ GoesOnNumber c) →
    Judged s.limit (L n w a) ((r n).Stumbles s) marks

theorem solid_cons (hc : ¬ IsBlank c) : Solid (c :: y) := by
  rintro d t ⟨⟩
  exact hc

structure Itemized (d : Nat) (r : Nat → Rule α) (I : Phrase α) (L : Nat → Phrase α) : Prop where
  weighed : ∀ w a, I w a → ∃ marks, Weighed d r L w a marks
  reads : ∀ n s, s.Room d n → Solid s.rest → (r n).Reads False GoesOnNumber (L n) s
  begins : I.Begins fun c => ¬ (IsBlank c ∨ c = ')' ∨ c = ']')

theorem Itemized.solid {r : Nat → Rule α} {I : Phrase α} {L : Nat → Phrase α} {a : α}
    (h : Itemized d r I L) (hw : I w a) (y : List Char) : Solid (w ++ y) := by
  obtain ⟨c, t, rfl, hc⟩ := h.begins w a hw
  exact solid_cons (not_or.mp hc).1

def nextRule (r : Rule α) : Rule α :=
  Rule.attempt do Rule.blanks; let _ ← Rule.literal ','; Rule.blanks; r

section Lists

variable {r : Nat → Rule α} {I : Phrase α} {L : Nat → Phrase α}

theorem nextRule_eq (r : Rule α) : nextRule r = Rule.attempt (Rule.comma >>= fun _ => r) := by
  rw [Rule.comma_bind_eq]
  rfl

theorem passes_comma {b b' z : List Char} (he : s.rest = b ++ ',' :: (b' ++ z))
    (hb : ∀ c ∈ b, IsBlank c) (hb' : ∀ c ∈ b', IsBlank c) (hz : Solid z) :
    Rule.comma.Passes s () (b ++ ',' :: b').length := by
  have hcomma : (s.moved b.length).rest = ',' :: (b' ++ z) := State.rest_moved_of_append he
  have hbehind : ((s.moved b.length).moved 1).rest = b' ++ z :=
    State.rest_moved_of_append (w := [',']) hcomma
  have hlen : (b ++ ',' :: b').length = b.length + (1 + b'.length) := by
    rw [List.length_append, List.length_cons]
    omega
  rw [hlen]
  exact (passes_blanks he hb (solid_cons (by decide))).bind
    ((passes_literal hcomma).bind (passes_blanks hbehind hb' hz))

theorem trips_next {b b' z : List Char} {r : Rule α} {k : Nat} (he : s.rest = b ++ ',' :: (b' ++ z))
    (hb : ∀ c ∈ b, IsBlank c) (hb' : ∀ c ∈ b', IsBlank c) (hz : Solid z)
    (h : r.Stumbles (s.moved (b ++ ',' :: b').length) k) :
    (nextRule r).Stumbles s ((b ++ ',' :: b').length + k) := by
  rw [nextRule_eq]
  exact ((passes_comma he hb hb' hz).trips h.trips).attempt

theorem passes_next {b b' z : List Char} {r : Rule α} {a : α} {k : Nat}
    (he : s.rest = b ++ ',' :: (b' ++ z))
    (hb : ∀ c ∈ b, IsBlank c) (hb' : ∀ c ∈ b', IsBlank c) (hz : Solid z)
    (h : r.Passes (s.moved (b ++ ',' :: b').length) a k) :
    (nextRule r).Passes s a ((b ++ ',' :: b').length + k) := by
  rw [nextRule_eq]
  exact ((passes_comma he hb hb' hz).bind h).attempt

theorem crosses_closing (h : closing = ')' ∨ closing = ']') :
    Crosses (.fields d) [closing] y [] (Place.fields d).leave := by
  have hnext : (Place.fields d).next (closing :: y) = (Place.fields d).leave := by
    rcases h with rfl | rfl <;> rfl
  rw [← hnext]
  apply crosses_step
  rcases h with rfl | rfl <;> rfl

theorem not_ending_of_goesOnNumber {as : List α} (hc : closing = ')' ∨ closing = ']')
    (h : Grammar.ending closing I e as) (y : List Char) :
    ∀ c t, e ++ y = c :: t → ¬ GoesOnNumber c := by
  intro c t he hgo
  obtain ⟨d, u, rfl, hd⟩ := Grammar.begins_ending closing I e as h
  obtain ⟨rfl, -⟩ := List.cons.inj he
  exact Rule.not_goesOnNumber hc hgo hd

structure WeighedEnding (d : Nat) (r : Nat → Rule α) (L : Nat → Phrase α) (closing : Char)
    (e : List Char) (as : List α) (marks : List Opening) : Prop where
  crosses : ∀ y, Crosses (.fields d) e y marks (Place.fields d).leave
  judged : ∀ n s y, s.Room d n → s.rest = e ++ y →
    Judged s.limit (Grammar.ending closing (L n) e as)
      (Halts (nextRule (r n)) (Rule.close closing) s) marks

theorem weighedEnding_closed (hc : closing = ')' ∨ closing = ']') {b : List Char}
    (hb : ∀ c ∈ b, IsBlank c) : WeighedEnding d r L closing (b ++ [closing]) [] [] := by
  refine ⟨fun y => ?_, fun n s y _ _ => judged_nil ?_⟩
  · exact (crosses_fields (ordinary_blanks hb)).quiet (crosses_closing hc)
  · rw [Grammar.ending_eq]
    exact bind_mk (a := ()) hb (.inr (symbol_bind_iff.mpr ⟨[], rfl, rfl, rfl⟩))

theorem ordinary_comma {b b' : List Char} (hb : ∀ c ∈ b, IsBlank c) (hb' : ∀ c ∈ b', IsBlank c) :
    ∀ c ∈ b ++ ',' :: b', Ordinary c := by
  intro c hc
  rcases List.mem_append.mp hc with hc | hc
  · exact ordinary_blanks hb c hc
  rcases List.mem_cons.mp hc with rfl | hc
  · decide
  · exact ordinary_blanks hb' c hc

theorem WeighedEnding.next {b b' w z : List Char} {a : α} {as : List α} {first rest : List Opening}
    (h : Itemized d r I L) (hc : closing = ')' ∨ closing = ']') (hb : ∀ c ∈ b, IsBlank c)
    (hb' : ∀ c ∈ b', IsBlank c) (hw : I w a) (hz : Grammar.ending closing I z as)
    (hfirst : Weighed d r L w a first) (hrest : WeighedEnding d r L closing z as rest) :
    WeighedEnding d r L closing (((b ++ ',' :: b') ++ w) ++ z) (a :: as)
      (first.map (Opening.behind (b ++ ',' :: b').length) ++
        rest.map (Opening.behind ((b ++ ',' :: b') ++ w).length)) := by
  constructor
  · intro y
    exact ((crosses_fields (ordinary_comma hb hb')).append_quiet (hfirst.crosses _)).append
      (hrest.crosses y)
  · intro n s y hs hr
    have hr' : s.rest = b ++ ',' :: (b' ++ (w ++ (z ++ y))) := by simp [hr]
    have hitem : (s.moved (b ++ ',' :: b').length).rest = w ++ (z ++ y) :=
      State.rest_moved_of_append (by simp [hr])
    have hbehind : (s.moved ((b ++ ',' :: b') ++ w).length).rest = z ++ y :=
      State.rest_moved_of_append (by simp [hr])
    have hsolid : Solid (w ++ (z ++ y)) := h.solid hw _
    have hstops := not_ending_of_goesOnNumber hc hz y
    -- The item is judged first; the rest of the list counts only where the item fits.
    apply Judged.append (F := L n w a)
    · apply (hfirst.judged n _ _ (hs.moved _) hitem hstops).behind _ id
      intro k hk
      apply (trips_next hr' hb hb' hsolid hk).halts
        (Rule.gives_unclosed hr' hb (by decide) (by rcases hc with rfl | rfl <;> decide))
      simp only [List.forall_mem_singleton, List.length_append, List.length_cons]
      omega
    · intro hfits
      have hpass := passes_next hr' hb hb' hsolid
        ((h.reads n _ (hs.moved _) (hitem ▸ hsolid)).tries.passes hitem hfits hstops)
      obtain ⟨notes, hg, hle⟩ := hpass
      rw [← List.length_append] at hg hle
      apply (hrest.judged n _ y (hs.moved _) hbehind).behind
      · intro hlast
        have hshape : ((b ++ ',' :: b') ++ w) ++ z = b ++ (',' :: (b' ++ w) ++ z) := by simp
        rw [hshape, Grammar.ending_eq]
        have hnext : Grammar.next (L n) (',' :: (b' ++ w)) a :=
          symbol_bind_iff.mpr ⟨_, rfl, bind_mk (a := ()) hb' hfits⟩
        exact bind_mk (a := ()) hb (.inl (bind_mk hnext (bind_pure_iff.mpr ⟨as, hlast, rfl⟩)))
      · intro k hk
        apply hk.step hg (hr.trans (List.append_assoc ..)) (by simp)
        intro n hn
        have := hle n hn
        omega

theorem weighed_ending (h : Itemized d r I L) (hc : closing = ')' ∨ closing = ']') {as : List α}
    (he : Grammar.ending closing I e as) : ∃ marks, WeighedEnding d r L closing e as marks := by
  induction hlen : e.length using Nat.strongRecOn generalizing e as with
  | ind l ih =>
    rw [Grammar.ending_eq] at he
    obtain ⟨b, x, _, rfl, hb, hx⟩ := he
    rcases hx with hx | hx
    · obtain ⟨u, z, a, rfl, hu, hmore⟩ := hx
      obtain ⟨as, hz, rfl⟩ := bind_pure_iff.mp hmore
      obtain ⟨_, rfl, hitem⟩ := symbol_bind_iff.mp hu
      obtain ⟨b', w, _, rfl, hb', hw⟩ := hitem
      obtain ⟨first, hfirst⟩ := h.weighed w a hw
      have hshorter : z.length < l := by
        rw [← hlen]
        simp only [List.length_append, List.length_cons]
        omega
      obtain ⟨rest, hrest⟩ := ih z.length hshorter hz rfl
      have hshape : b ++ (',' :: (b' ++ w) ++ z) = ((b ++ ',' :: b') ++ w) ++ z := by simp
      rw [hshape]
      exact ⟨_, .next h hc hb hb' hw hz hfirst hrest⟩
    · obtain ⟨t, rfl, rfl, rfl⟩ := symbol_bind_iff.mp hx
      exact ⟨[], weighedEnding_closed hc hb⟩

def items (closing : Char) (I : Phrase α) : Phrase (List α) :=
  Phrase.either (I >>= fun a => Grammar.ending closing I >>= fun as => pure (a :: as))
    (Phrase.symbol closing >>= fun _ => pure [])

def itemsRule (closing : Char) (r : Rule α) : Rule (List α) := do
  let found ← Rule.separated Rule.comma r
  Rule.blanks
  let _ ← Rule.literal closing
  return found

theorem not_blank_closing (hc : closing = ')' ∨ closing = ']') : ¬ IsBlank closing := by
  rcases hc with rfl | rfl <;> decide

theorem solid_items (h : Itemized d r I L) (hc : closing = ')' ∨ closing = ']') {as : List α}
    (hw : items closing I w as) (y : List Char) : Solid (w ++ y) := by
  rcases hw with ⟨u, z, a, rfl, hu, -⟩ | hw
  · rw [List.append_assoc]
    exact h.solid hu _
  · obtain ⟨t, rfl, -⟩ := symbol_bind_iff.mp hw
    exact solid_cons (not_blank_closing hc)

theorem weighed_items (h : Itemized d r I L) (hc : closing = ')' ∨ closing = ']') {as : List α}
    (hw : items closing I w as) : ∃ marks,
      (∀ y, Crosses (.fields d) w y marks (Place.fields d).leave) ∧
      ∀ n s y, s.Room d n → s.rest = w ++ y →
        Judged s.limit (items closing (L n) w as) ((itemsRule closing (r n)).Trips s) marks := by
  rcases hw with hw | hw
  · obtain ⟨u, z, a, rfl, hu, hmore⟩ := hw
    obtain ⟨as, hz, rfl⟩ := bind_pure_iff.mp hmore
    obtain ⟨first, hfirst⟩ := h.weighed u a hu
    obtain ⟨rest, hrest⟩ := weighed_ending h hc hz
    refine ⟨first ++ rest.map (Opening.behind u.length), ?_, ?_⟩
    · exact fun y => (hfirst.crosses _).append (hrest.crosses y)
    · intro n s y hs hr
      rw [List.append_assoc] at hr
      have hbehind : (s.moved u.length).rest = z ++ y := State.rest_moved_of_append hr
      have hstops := not_ending_of_goesOnNumber hc hz y
      rw [itemsRule, Rule.items_eq]
      apply Judged.append (F := L n u a)
      · apply (hfirst.judged n s _ hs hr hstops).imp id
        intro k hk
        obtain ⟨c, t, rfl, hstart⟩ := h.begins u a hu
        obtain ⟨hblank, hclosing⟩ := not_or.mp hstart
        -- Where the first item is given up, the list cannot be closed in its place.
        refine hk.optional ⟨_, Rule.gives_unclosed (b := []) hr (by simp) hblank ?_, by simp⟩
        rintro rfl
        exact hclosing hc
      · intro hfits
        have hpass := (h.reads n s hs (hr ▸ h.solid hu _)).tries.passes hr hfits hstops
        apply (hrest.judged n _ y (hs.moved _) hbehind).behind
        · exact fun hz' => .inl (bind_mk hfits (bind_pure_iff.mpr ⟨as, hz', rfl⟩))
        · intro k hk
          apply hpass.optional.trips
          apply Trips.bind
          exact hk.trips fun _ _ _ _ hg => hg.bind_none
  · obtain ⟨t, rfl, rfl, rfl⟩ := symbol_bind_iff.mp hw
    refine ⟨[], fun y => crosses_closing hc, fun n s y _ _ => judged_nil (.inr ?_)⟩
    exact symbol_bind_iff.mpr ⟨[], rfl, rfl, rfl⟩

theorem stumbles_enclosed {b z : List Char} {r : Rule α} {k : Nat} (hd : s.depth < s.limit)
    (he : s.rest = opening :: (b ++ z)) (ho : ¬ IsBlank opening) (hb : ∀ c ∈ b, IsBlank c)
    (hz : Solid z) (h : (itemsRule closing r).Trips (s.deeper.moved (opening :: b).length) k) :
    (Rule.enclosed opening closing r).Stumbles s ((opening :: b).length + k) := by
  have hopen : s.deeper.rest = opening :: (b ++ z) := he
  have hbehind : (s.deeper.moved 1).rest = b ++ z := State.rest_moved_of_append (w := [opening]) hopen
  have hlen : (opening :: b).length = 1 + b.length := by
    rw [List.length_cons]
    omega
  rw [hlen, ← State.moved_moved] at h
  rw [hlen, Nat.add_assoc, ← Nat.zero_add (1 + (b.length + k))]
  apply Stumbles.nested hd
  exact ((passes_blanks (b := []) hopen (by simp) (solid_cons ho)).trips
    ((passes_literal hopen).trips ((passes_blanks hbehind hb hz).trips h))).attempt

theorem weighed_enclosed (h : Itemized (d + 1) r I L) (hopen : opening = '(' ∨ opening = '[')
    (hc : closing = ')' ∨ closing = ']') {as : List α}
    (hw : Grammar.enclosed opening closing I w as) : ∃ marks,
      (∀ y, Crosses (.fields d) w y (⟨0, d + 1⟩ :: marks) (Place.fields (d + 1)).leave) ∧
      ∀ n s y, s.Room d (n + 1) → s.rest = w ++ y →
        Judged s.limit (Grammar.enclosed opening closing (L n) w as)
          ((Rule.enclosed opening closing (r n)).Stumbles s) marks := by
  rw [Grammar.enclosed_eq] at hw
  obtain ⟨_, rfl, hinside⟩ := symbol_bind_iff.mp hw
  obtain ⟨b, x, _, rfl, hb, hx⟩ := hinside
  obtain ⟨marks, hcross, hjudged⟩ := weighed_items h hc hx
  refine ⟨marks.map (Opening.behind (opening :: b).length), ?_, ?_⟩
  · intro y
    have hfirst : Crosses (.fields d) [opening] (b ++ (x ++ y)) [⟨0, d + 1⟩] (.fields (d + 1)) := by
      rcases hopen with rfl | rfl <;> exact crosses_open rfl
    exact (hfirst.append (crosses_fields (ordinary_blanks hb))).append (hcross y)
  · intro n s y hs hr
    have hr' : s.deeper.rest = opening :: (b ++ (x ++ y)) := by
      rw [← List.append_assoc]
      exact hr
    have hin : (s.deeper.moved (opening :: b).length).rest = x ++ y :=
      State.rest_moved_of_append (w := opening :: b) hr'
    have hblank : ¬ IsBlank opening := by rcases hopen with rfl | rfl <;> decide
    apply (hjudged n _ y (hs.deeper.moved _) hin).behind
    · intro hx'
      rw [Grammar.enclosed_eq]
      exact symbol_bind_iff.mpr ⟨_, rfl, bind_mk hb hx'⟩
    · exact fun k hk => stumbles_enclosed hs.lt hr' hblank hb (solid_items h hc hx y) hk

theorem stumbles_pair {u b b' z : List Char} {r : Rule α} {key : String} {k : Nat}
    (he : s.rest = u ++ (b ++ '=' :: (b' ++ z))) (hu : Grammar.name u key)
    (hb : ∀ c ∈ b, IsBlank c) (hb' : ∀ c ∈ b', IsBlank c) (hz : Solid z)
    (h : r.Stumbles (s.moved (u ++ (b ++ '=' :: b')).length) k) :
    (Rule.pair r).Stumbles s ((u ++ (b ++ '=' :: b')).length + k) := by
  have hequals : ((s.moved u.length).moved b.length).rest = '=' :: (b' ++ z) :=
    State.rest_moved_of_append (State.rest_moved_of_append he)
  have hbehind : (((s.moved u.length).moved b.length).moved 1).rest = b' ++ z :=
    State.rest_moved_of_append (w := ['=']) hequals
  have hlen : (u ++ (b ++ '=' :: b')).length = u.length + (b.length + (1 + b'.length)) := by
    rw [List.length_append, List.length_append, List.length_cons]
    omega
  have hsolid : Solid s.rest := by
    obtain ⟨c, t, rfl, hc⟩ := Rule.begins_name u key hu
    rw [he]
    exact solid_cons (Phrase.not_blank_of (S := (CharClass.nameStart.contains · = true)) (by decide) hc)
  have hname : Rule.name.Passes s key u.length := by
    apply (Rule.tries_name (P := False)).passes he hu
    intro c t ht hgo
    cases b with
    | nil =>
      obtain ⟨rfl, -⟩ := List.cons.inj ht
      exact Grammar.not_goesOnName hgo (.inr rfl)
    | cons d b =>
      obtain ⟨rfl, -⟩ := List.cons.inj ht
      exact Grammar.not_goesOnName hgo (.inl (hb d List.mem_cons_self))
  rw [hlen, ← State.moved_moved, ← State.moved_moved, ← State.moved_moved] at h
  rw [hlen, Nat.add_assoc, Nat.add_assoc, Nat.add_assoc, ← Nat.zero_add (u.length + _)]
  exact ((passes_blanks (b := []) rfl (by simp) hsolid).trips (hname.trips
    ((passes_blanks (State.rest_moved_of_append he) hb (solid_cons (by decide))).trips
      ((passes_literal hequals).trips ((passes_blanks hbehind hb' hz).trips h.trips.bind))))).attempt

theorem Itemized.pair (h : Itemized d r I L) (hS : ∀ n, (L n).Begins Grammar.StartsValue)
    (hV : ∀ n, (L n).Viable []) :
    Itemized d (fun n => Rule.pair (r n)) (Grammar.pair I) fun n => Grammar.pair (L n) := by
  constructor
  · rintro w p ⟨u, _, key, rfl, hu, b, _, _, rfl, hb, hequals⟩
    obtain ⟨_, rfl, b', v, _, rfl, hb', hv⟩ := symbol_bind_iff.mp hequals
    obtain ⟨a, ha, rfl⟩ := bind_pure_iff.mp hv
    obtain ⟨marks, hmarks⟩ := h.weighed v a ha
    have hshape : u ++ (b ++ '=' :: (b' ++ v)) = (u ++ (b ++ '=' :: b')) ++ v := by simp
    have hp : ∀ c ∈ u ++ (b ++ '=' :: b'), Ordinary c := by
      simp only [List.forall_mem_append, List.forall_mem_cons]
      exact ⟨ordinary_name hu, ordinary_blanks hb, by decide, ordinary_blanks hb'⟩
    rw [hshape]
    refine ⟨marks.map (Opening.behind (u ++ (b ++ '=' :: b')).length), ?_, ?_⟩
    · exact fun y => (crosses_fields hp).append_quiet (hmarks.crosses y)
    · intro n s y hs hr hy
      have hin : (s.moved (u ++ (b ++ '=' :: b')).length).rest = v ++ y :=
        State.rest_moved_of_append (by rw [hr, List.append_assoc])
      apply (hmarks.judged n _ y (hs.moved _) hin hy).behind
      · intro hfits
        rw [← hshape]
        exact bind_mk hu (bind_mk hb (symbol_bind_iff.mpr
          ⟨_, rfl, bind_mk hb' (bind_pure_iff.mpr ⟨a, hfits, rfl⟩)⟩))
      · intro k hk
        exact stumbles_pair (by simpa using hr) hu hb hb' (h.solid ha y) hk
  · intro n s hs hsolid
    exact Rule.reads_pair hsolid (fun k hk => h.reads n _ (hs.moved k) hk) (hS n) (hV n)
  · apply (Grammar.begins_pair I).mono
    rintro c hc (hb | rfl | rfl)
    · exact Phrase.not_blank_of (S := (CharClass.nameStart.contains · = true)) (by decide) hc hb
    · exact absurd hc (by decide)
    · exact absurd hc (by decide)

end Lists

theorem reads_value (h : s.Room d n) (hs : Solid s.rest) :
    (Rule.valueWithin n).Reads False GoesOnNumber (Grammar.value n) s :=
  Rule.reads_valueWithin False.elim n n s h.levels (.inl h.levels) False.elim hs

theorem value_of_scalar {v : Value} (h : Grammar.scalar w v) : Grammar.value n w v := by
  cases n with
  | zero => exact h
  | succ n => exact .inr (.inr h)

theorem stumbles_value_zero (h : s.Room d 0) (he : s.rest = c :: y) (hc : c = '(' ∨ c = '[') :
    (Rule.valueWithin 0).Stumbles s 0 := by
  have hle : s.limit ≤ s.depth := by rw [h.limit, h.depth]; exact Nat.le_refl d
  have hsolid : ¬ IsBlank c := by rcases hc with rfl | rfl <;> decide
  have hscalar := (Rule.reads_scalar (he ▸ solid_cons hsolid) False.elim).fails
    Grammar.begins_scalar he (Grammar.not_startsScalar_of_bracket hc)
  have hrefused : ∀ {o e : Char} {α : Type} {r : Rule α},
      (Rule.enclosed o e r).Stumbles s 0 := Rule.stumbles_nested hle
  change (Rule.choice (Rule.alternatives Rule.never)).Stumbles s 0
  exact (hrefused.bind.bind).orElse_fails (hrefused.bind.fails.orElse hscalar)

theorem stumbles_object {k : Nat} (h : s.Room d (n + 1)) (he : s.rest = '(' :: y)
    (ho : (Rule.enclosed '(' ')' (Rule.pair (Rule.valueWithin n))).Stumbles s k) :
    (Rule.valueWithin (n + 1)).Stumbles s k := by
  have hs : Solid s.rest := he ▸ solid_cons (by decide)
  have hscalar := (Rule.reads_scalar hs False.elim).fails Grammar.begins_scalar he (by decide)
  have harray := (Rule.reads_array (P := False) h.lt hs
    (fun _ k _ hk => reads_value (h.deeper.moved k) hk) (Grammar.begins_value n)
    (Grammar.viable_value n) False.elim).fails (Grammar.begins_array _) he (by decide)
  change (Rule.choice (Rule.alternatives (Rule.valueWithin n))).Stumbles s k
  exact (ho.bind.bind).orElse_fails (harray.bind.orElse hscalar)

theorem stumbles_array {k : Nat} (h : s.Room d (n + 1)) (he : s.rest = '[' :: y)
    (ha : (Rule.enclosed '[' ']' (Rule.valueWithin n)).Stumbles s k) :
    (Rule.valueWithin (n + 1)).Stumbles s k := by
  have hs : Solid s.rest := he ▸ solid_cons (by decide)
  have hscalar := (Rule.reads_scalar hs False.elim).fails Grammar.begins_scalar he (by decide)
  have hobject := (Rule.reads_object (P := False) h.lt hs
    (fun _ k _ hk => reads_value (h.deeper.moved k) hk) (Grammar.begins_value n)
    (Grammar.viable_value n) False.elim).fails (Grammar.begins_object _) he (by decide)
  change (Rule.choice (Rule.alternatives (Rule.valueWithin n))).Stumbles s k
  exact hobject.bind.orElse_stumbles (ha.bind.orElse_fails hscalar)

theorem weighed_scalar {v : Value} (h : Grammar.scalar w v) :
    Weighed d Rule.valueWithin Grammar.value w v [] :=
  ⟨fun _ => crosses_scalar h, fun _ _ _ _ _ _ => judged_nil (value_of_scalar h)⟩

theorem weighed_container {v : Value} (hd : 0 < d) (hw : w = c :: y) (hc : c = '(' ∨ c = '[')
    (hcross : ∀ z, Crosses (.fields d) w z (⟨0, d + 1⟩ :: marks) (Place.fields (d + 1)).leave)
    (hjudged : ∀ n s z, s.Room d (n + 1) → s.rest = w ++ z →
      Judged s.limit (Grammar.value (n + 1) w v) ((Rule.valueWithin (n + 1)).Stumbles s) marks) :
    Weighed d Rule.valueWithin Grammar.value w v (⟨0, d + 1⟩ :: marks) := by
  have hleave : (Place.fields (d + 1)).leave = .fields d := by
    rw [Place.leave, if_neg (by omega)]
    rfl
  rw [hleave] at hcross
  refine ⟨hcross, fun n s z hs hr _ => ?_⟩
  cases n with
  | zero =>
    apply judged_first
    · rw [hs.limit]
    · subst hw
      exact stumbles_value_zero hs hr hc
  | succ n =>
    apply (hjudged n s z hs hr).cons
    rw [hs.limit]
    simp only
    omega

theorem itemized_value (h : ∀ w v, Grammar.value M w v →
    ∃ marks, Weighed d Rule.valueWithin Grammar.value w v marks) :
    Itemized d Rule.valueWithin (Grammar.value M) Grammar.value := by
  refine ⟨h, fun n s => reads_value, (Grammar.begins_value M).mono ?_⟩
  rintro c hc (hb | rfl | rfl)
  · exact Grammar.not_blank_of_startsValue hc hb
  · exact absurd hc (by decide)
  · exact absurd hc (by decide)

theorem weighed_value : ∀ (M : Nat) {d : Nat} {w : List Char} {v : Value}, 0 < d →
    Grammar.value M w v → ∃ marks, Weighed d Rule.valueWithin Grammar.value w v marks
  | 0, _, _, _, _, h => ⟨[], weighed_scalar h⟩
  | M + 1, d, w, v, hd, h => by
    have hitems : Itemized (d + 1) Rule.valueWithin (Grammar.value M) Grammar.value :=
      itemized_value fun _ _ => weighed_value M (Nat.succ_pos d)
    rcases h with h | h | h
    · obtain ⟨fields, hfields, rfl⟩ := bind_pure_iff.mp h
      obtain ⟨t, rfl⟩ : ∃ t, w = '(' :: t := by
        obtain ⟨_, t, rfl, rfl⟩ := Grammar.begins_object _ w fields hfields
        exact ⟨t, rfl⟩
      rw [Grammar.object_eq] at hfields
      obtain ⟨pairs, hpairs, rfl⟩ := bind_pure_iff.mp hfields
      obtain ⟨marks, hcross, hjudged⟩ := weighed_enclosed
        (hitems.pair Grammar.begins_value Grammar.viable_value) (.inl rfl) (.inl rfl) hpairs
      refine ⟨_, weighed_container hd rfl (.inl rfl) hcross fun n s z hs hr => ?_⟩
      apply (hjudged n s z hs hr).imp
      · intro hfits
        refine .inl (bind_pure_iff.mpr ⟨_, ?_, rfl⟩)
        rw [Grammar.object_eq]
        exact bind_pure_iff.mpr ⟨pairs, hfits, rfl⟩
      · exact fun k => stumbles_object hs hr
    · obtain ⟨vs, hvs, rfl⟩ := bind_pure_iff.mp h
      obtain ⟨t, rfl⟩ : ∃ t, w = '[' :: t := by
        obtain ⟨_, t, rfl, rfl⟩ := Grammar.begins_array _ w vs hvs
        exact ⟨t, rfl⟩
      obtain ⟨marks, hcross, hjudged⟩ := weighed_enclosed hitems (.inr rfl) (.inr rfl) hvs
      refine ⟨_, weighed_container hd rfl (.inr rfl) hcross fun n s z hs hr => ?_⟩
      apply (hjudged n s z hs hr).imp
      · exact fun hfits => .inr (.inl (bind_pure_iff.mpr ⟨vs, hfits, rfl⟩))
      · exact fun k => stumbles_array hs hr
    · exact ⟨[], weighed_scalar h⟩

theorem weighed_configuration {fields : Entries Value} (h : Grammar.configuration M w fields) :
    ∃ marks, (∀ y, Crosses (.fields 0) w y marks (.body 0)) ∧
      ∀ n s y, s.Room 0 n → s.rest = w ++ y →
        Judged s.limit (Grammar.configuration n w fields) ((Rule.object Rule.value).Stumbles s)
          marks := by
  cases M with
  | zero => exact h.elim
  | succ M =>
    -- The values inside take their levels from the state, one less than the configuration has.
    have hvalue : Itemized 1 (fun _ => Rule.value) (Grammar.value M) Grammar.value := by
      have hw := itemized_value fun _ _ => weighed_value M (d := 1) (by decide)
      refine ⟨fun w v hv => ?_, fun n s hs hsolid => ?_, hw.begins⟩
      · obtain ⟨marks, hcross, hjudged⟩ := hw.weighed w v hv
        refine ⟨marks, hcross, fun n s y hs hr hy => ?_⟩
        apply (hjudged n s y hs hr hy).imp id
        exact fun k hk => hk.congr fun log => by rw [Rule.value, hs.levels]
      · exact Rule.reads_value (.inl hs.levels) False.elim hsolid
    have hw : Grammar.object (Grammar.value M) w fields := h
    rw [Grammar.object_eq] at hw
    obtain ⟨pairs, hpairs, rfl⟩ := bind_pure_iff.mp hw
    obtain ⟨marks, hcross, hjudged⟩ := weighed_enclosed
      (hvalue.pair Grammar.begins_value Grammar.viable_value) (.inl rfl) (.inl rfl) hpairs
    refine ⟨⟨0, 1⟩ :: marks, hcross, fun n s y hs hr => ?_⟩
    cases n with
    | zero =>
      apply judged_first
      · rw [hs.limit]
      · exact (Rule.stumbles_nested (by simp [hs.limit, hs.depth])).bind
    | succ n =>
      apply Judged.cons
      · rw [hs.limit]
        simp
      · apply (hjudged n s y hs hr).imp
        · intro hfits
          change Grammar.object (Grammar.value n) w _
          rw [Grammar.object_eq]
          exact bind_pure_iff.mpr ⟨pairs, hfits, rfl⟩
        · exact fun k hk => hk.bind

end FuncScript.Nesting
