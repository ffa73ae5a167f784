import FuncScript.Proofs.Boundary
import FuncScript.Proofs.Nesting.Block
import FuncScript.Proofs.Nesting.Value

/-!
The nesting limit. A script fits every limit that its deepest container and its deepest block keep;
any lower one is reported where a level is missing for the first time.
-/

namespace FuncScript.Nesting

open Phrase (IsBlank isBlank_iff bind_iff bind_pure_iff bind_mk)
open Rule (Passes Trips Stumbles passes_blanks)

variable {α : Type} {n k M : Nat} {s : State} {c : Char} {text : List Char} {fields : Entries Value}
  {d : Definition} {b₀ u b₁ v b₂ w b₃ z y : List Char} {key : String}

theorem plain_blank (h : IsBlank c) : Plain c := by
  rcases isBlank_iff.mp h with rfl | rfl | rfl | rfl <;> exact ⟨by decide, by decide⟩

theorem ordinary_header (hb₀ : ∀ c ∈ b₀, IsBlank c) (hu : Grammar.word .func u ())
    (hb₁ : ∀ c ∈ b₁, IsBlank c) (hv : Grammar.name v key) (hb₂ : ∀ c ∈ b₂, IsBlank c) :
    ∀ c ∈ b₀ ++ (u ++ (b₁ ++ (v ++ b₂))), Ordinary c := by
  simp only [List.forall_mem_append]
  exact ⟨ordinary_blanks hb₀, ordinary_word hu, ordinary_blanks hb₁, ordinary_name hv,
    ordinary_blanks hb₂⟩

theorem trips_header {f : String → Rule α}
    (he : s.rest = b₀ ++ (u ++ (b₁ ++ (v ++ (b₂ ++ '(' :: z)))))
    (hb₀ : ∀ c ∈ b₀, IsBlank c) (hu : Grammar.word .func u ())
    (hb₁ : ∀ c ∈ b₁, IsBlank c) (hv : Grammar.name v key) (hb₂ : ∀ c ∈ b₂, IsBlank c)
    (h : (f key).Trips (s.moved (b₀ ++ (u ++ (b₁ ++ (v ++ b₂)))).length) k) :
    (Rule.blanks >>= fun _ => Rule.keyword .func >>= fun _ => Rule.blanks >>= fun _ =>
      Rule.name >>= fun key => Rule.blanks >>= fun _ => f key).Trips s
        ((b₀ ++ (u ++ (b₁ ++ (v ++ b₂)))).length + k) := by
  have hfunc : Solid (u ++ (b₁ ++ (v ++ (b₂ ++ '(' :: z)))) := by
    obtain ⟨c, t, rfl, hc⟩ := Rule.begins_word (k := .func) rfl u () hu
    exact solid_cons (Phrase.not_blank_of (S := ((CharClass.letter 'F').contains · = true)) (by decide) hc)
  have hname : Solid (v ++ (b₂ ++ '(' :: z)) := by
    obtain ⟨c, t, rfl, hc⟩ := Rule.begins_name v key hv
    exact solid_cons (Phrase.not_blank_of (S := (CharClass.nameStart.contains · = true)) (by decide) hc)
  have hstops : ∀ c t, b₂ ++ '(' :: z = c :: t → ¬ Rule.GoesOnName c := by
    intro c t ht hgo
    cases b₂ with
    | nil =>
      obtain ⟨rfl, -⟩ := List.cons.inj ht
      exact absurd hgo (by decide)
    | cons e b₂ =>
      obtain ⟨rfl, -⟩ := List.cons.inj ht
      exact Grammar.not_goesOnName hgo (.inl (hb₂ e List.mem_cons_self))
  have h₁ := State.rest_moved_of_append he
  have h₂ := State.rest_moved_of_append h₁
  have h₃ := State.rest_moved_of_append h₂
  have h₄ := State.rest_moved_of_append h₃
  simp only [List.length_append, ← State.moved_moved] at h
  simp only [List.length_append, Nat.add_assoc]
  exact (passes_blanks he hb₀ hfunc).trips
    (((Rule.reads_keyword (P := False) .func).tries.passes h₁ hu (by simp)).trips
      ((passes_blanks h₂ hb₁ hname).trips
        (((Rule.tries_name (P := False)).passes h₃ hv hstops).trips
          ((passes_blanks h₄ hb₂ (solid_cons (by decide))).trips h))))

theorem script_parts {x : List Char} (h : Grammar.script M x d) :
    ∃ b₀ u b₁ v b₂ key w fields b₃ z raw y,
      x = (b₀ ++ (u ++ (b₁ ++ (v ++ b₂)))) ++ (w ++ (b₃ ++ (z ++ y))) ∧
      (∀ c ∈ b₀, IsBlank c) ∧ Grammar.word .func u () ∧ (∀ c ∈ b₁, IsBlank c) ∧
      Grammar.name v key ∧ (∀ c ∈ b₂, IsBlank c) ∧ Grammar.configuration M w fields ∧
      (∀ c ∈ b₃, IsBlank c) ∧ Grammar.block M z raw ∧ ∀ n, Grammar.configuration n w fields →
        Grammar.block n z raw → Grammar.script n x d := by
  obtain ⟨b₀, _, _, rfl, hb₀, u, _, _, rfl, hu, b₁, _, _, rfl, hb₁, v, _, key, rfl, hv, h⟩ := h
  obtain ⟨b₂, _, _, rfl, hb₂, w, _, fields, rfl, hw, b₃, _, _, rfl, hb₃, z, y, raw, rfl, hz, hy⟩ := h
  refine ⟨b₀, u, b₁, v, b₂, key, w, fields, b₃, z, raw, y, by simp, hb₀, hu, hb₁, hv, hb₂, hw, hb₃,
    hz, fun n hw' hz' => ?_⟩
  exact bind_mk hb₀ (bind_mk hu (bind_mk hb₁ (bind_mk hv (bind_mk hb₂ (bind_mk hw'
    (bind_mk hb₃ (bind_mk hz' hy)))))))

def behindConfiguration (functionName : String) (fields : Entries Value) : Rule Definition := do
  Rule.blanks
  let raw ← Rule.slice (← Rule.block)
  let tags ← Rule.annotations
  return ⟨functionName, fields, String.ofList (Body.tidy raw), tags⟩

def behindName (functionName : String) : Rule Definition := do
  let fields ← Rule.object Rule.value
  behindConfiguration functionName fields

theorem definition_eq : Rule.definition = Rule.attempt (Rule.blanks >>= fun _ =>
    Rule.keyword .func >>= fun _ => Rule.blanks >>= fun _ => Rule.name >>= fun key =>
      Rule.blanks >>= fun _ => behindName key) := rfl

theorem trips_block {raw : List Char} (hs : s.Room 0 n) (hr : s.rest = w ++ (b₃ ++ (z ++ y)))
    (hw : Grammar.configuration n w fields) (hb₃ : ∀ c ∈ b₃, IsBlank c)
    (hz : Grammar.block M z raw)
    (h : (Rule.blockWithin n).Stumbles ((s.moved w.length).moved b₃.length) k) :
    (behindName key).Trips s (w.length + (b₃.length + k)) := by
  have hbehind : (s.moved w.length).rest = b₃ ++ (z ++ y) := State.rest_moved_of_append hr
  have hsolid : Solid (z ++ y) := by
    obtain ⟨c, t, rfl, hc⟩ := begins_block M z raw hz
    exact solid_cons (Phrase.not_blank_of (S := ((CharClass.letter 'B').contains · = true)) (by decide) hc)
  have hconfiguration : (Rule.object Rule.value).Passes s fields w.length := by
    have hs' : Solid s.rest := by
      obtain ⟨c, t, rfl, rfl⟩ := Grammar.begins_configuration n w fields hw
      rw [hr]
      exact solid_cons (by decide)
    exact (Rule.reads_configuration (P := False) (M := n) (.inl hs.levels) False.elim hs').tries.passes
      hr hw (by simp)
  have hblock : Rule.block.Stumbles ((s.moved w.length).moved b₃.length) k :=
    h.congr fun log => by rw [Rule.block, ((hs.moved _).moved _).levels]
  exact hconfiguration.trips ((passes_blanks hbehind hb₃ hsolid).trips hblock.trips.bind)

theorem weighed_script {x : List Char} (h : Grammar.script M x d) (n : Nat) :
    Judged n (Grammar.script n x d) (Rule.definition.Stumbles (Script.start n x)) (openings x) := by
  obtain ⟨b₀, u, b₁, v, b₂, key, w, fields, b₃, z, raw, y, hx, hb₀, hu, hb₁, hv, hb₂, hw, hb₃, hz,
    hfits⟩ := script_parts h
  obtain ⟨first, hcross, hjudged⟩ := weighed_configuration hw
  obtain ⟨second, hblock⟩ := weighed_block (d := 0) hz
  let header := b₀ ++ (u ++ (b₁ ++ (v ++ b₂)))
  have hopen : openings x = (first ++ (second.map (Opening.behind b₃.length)).map
      (Opening.behind w.length)).map (Opening.behind header.length) := by
    have hblanks : Crosses (.body 0) b₃ (z ++ y ++ []) [] (.body 0) :=
      crosses_plain fun c hc => plain_blank (hb₃ c hc)
    have hcrosses := (crosses_fields (d := 0) (ordinary_header hb₀ hu hb₁ hv hb₂)).append_quiet
      ((hcross _).append (hblanks.append_quiet ((hblock.crosses _).append (crosses_behind y))))
    rw [openings, hx, hcrosses.openingsFrom_eq, List.map_nil, List.append_nil]
  have hs : (Script.start n x).Room 0 n := ⟨rfl, (Nat.zero_add n).symm⟩
  have hr : ((Script.start n x).moved header.length).rest = w ++ (b₃ ++ (z ++ y)) :=
    State.rest_moved_of_append ((Script.rest_start n x).trans hx)
  have hr' := State.rest_moved_of_append hr
  have hr'' := State.rest_moved_of_append hr'
  have hheader : ∀ k, (behindName key).Trips ((Script.start n x).moved header.length) k →
      Rule.definition.Stumbles (Script.start n x) (header.length + k) := by
    intro k hk
    obtain ⟨c, t, rfl, rfl⟩ := Grammar.begins_configuration M w fields hw
    rw [definition_eq]
    exact (trips_header (by simpa [Script.rest_start] using hx) hb₀ hu hb₁ hv hb₂ hk).attempt
  rw [hopen]
  refine Judged.behind (F := Grammar.script n x d)
    (S := fun k => (behindName key).Trips ((Script.start n x).moved header.length) k)
    (Judged.append (F := Grammar.configuration n w fields) ?_ fun hw' => ?_) _ id hheader
  · exact (hjudged n _ _ (hs.moved _) hr).imp id fun k hk => hk.trips.bind
  · refine Judged.behind (F := Grammar.script n x d)
      (S := fun k => (behindName key).Trips _ (w.length + k)) (Judged.behind
        (hblock.judged n _ y (((hs.moved _).moved _).moved _) hr'') _ (hfits n hw') ?_) _ id
      fun k hk => hk
    exact fun k ⟨hk, _⟩ => trips_block (hs.moved _) hr hw' hb₃ hz hk

/-- The error is about the first container or block that lies just deeper than `limit`. -/
structure TooDeep (limit : Nat) (text : List Char) (e : SyntaxError) : Prop where
  opening : ∃ o ∈ openings text, o.level = limit + 1 ∧ e.location.start.offset = o.offset ∧
    ∀ o' ∈ openings text, o'.level = limit + 1 → o.offset ≤ o'.offset
  found : ∃ c rest, text.drop e.location.start.offset = c :: rest ∧ e.found = some c ∧
    (c = '(' ∨ c = '[' ∨ Keyword.blockBegin.startsAt (c :: rest) = true)
  expected : .other ("nesting depth of at most " ++ toString limit) ∈ e.expected

theorem first_of_sorted {before after : List Opening} {o : Opening} {limit : Nat}
    (he : openings text = before ++ o :: after) (hne : ∀ o' ∈ before, o'.level ≠ limit + 1) :
    ∀ o' ∈ openings text, o'.level = limit + 1 → o.offset ≤ o'.offset := by
  have hsorted : (openings text).Pairwise (·.offset < ·.offset) := sorted_openingsFrom _ _ _
  rw [he, List.pairwise_append] at hsorted
  obtain ⟨-, hbehind, -⟩ := hsorted
  rw [he]
  intro o' ho' hlevel
  rcases List.mem_append.mp ho' with ho' | ho'
  · exact absurd hlevel (hne o' ho')
  rcases List.mem_cons.mp ho' with rfl | ho'
  · exact Nat.le_refl _
  · exact Nat.le_of_lt ((List.pairwise_cons.mp hbehind).1 o' ho')

theorem read_of_stumbles {limit : Nat} (h : Rule.definition.Stumbles (Script.start limit text) k)
    (hk : k ≤ text.length) : ∃ e, Script.read limit text.toArray = .error e ∧
      e.location.start.offset = k ∧ e.found = text[k]? ∧
        .other ("nesting depth of at most " ++ toString limit) ∈ e.expected := by
  obtain ⟨notes, hg, hb⟩ := h
  obtain ⟨heq, hexpected⟩ := hb.log
  rw [show (Script.start limit text).cursor + k = k from Nat.zero_add k] at heq
  refine ⟨Script.syntaxError text.toArray (FailureLog.noteAll {} notes), Script.read_eq hg, ?_, ?_, ?_⟩
  · rw [Script.start_syntaxError (by rwa [heq, List.size_toArray]), heq]
  · change text.toArray[(FailureLog.noteAll {} notes).furthest]? = _
    rw [heq, List.getElem?_toArray]
  · exact SyntaxError.mem_unique.mpr hexpected

theorem read_of_deep {limit : Nat} (h : Grammar.script M text d) (hdeep : limit < depth text) :
    ∃ e, Script.read limit text.toArray = .error e ∧ TooDeep limit text e := by
  obtain ⟨o, ho, hlevel⟩ := exists_opening hdeep
  cases weighed_script h limit with
  | fits hnone => exact absurd hlevel (hnone o ho)
  | stops o he hne hlevel hstops =>
    have hmem : o ∈ openings text := by
      rw [he]
      simp
    obtain ⟨c, rest, hdrop, hopens⟩ := opening_at hmem
    rw [Nat.sub_zero] at hdrop
    have hget : text[o.offset]? = some c := by
      rw [← List.head?_drop, hdrop, List.head?_cons]
    obtain ⟨hlt, -⟩ := List.getElem?_eq_some_iff.mp hget
    obtain ⟨e, hread, hoffset, hfound, hexpected⟩ := read_of_stumbles hstops (Nat.le_of_lt hlt)
    exact ⟨e, hread, ⟨o, hmem, hlevel, hoffset, first_of_sorted he hne⟩,
      ⟨c, rest, by rw [hoffset, hdrop], by rw [hfound, hget], hopens⟩, hexpected⟩

theorem script_of_depth_le {limit : Nat} (h : Grammar.script M text d) (hle : depth text ≤ limit) :
    Grammar.script limit text d := by
  cases weighed_script h limit with
  | fits _ hfits => exact hfits
  | stops o he _ hlevel _ =>
    have hmem : o ∈ openings text := by
      rw [he]
      simp
    have := level_le_depth hmem
    omega

end FuncScript.Nesting

namespace FuncScript.Script

open Nesting (TooDeep depth)

/-- A script that is accepted is accepted, as the same definition, exactly where the limit is at
least its depth. A lower limit is reported at the first container or block that lies deeper. -/
theorem parse_nesting (options : Options) (text : String) (d : Definition)
    (h : parse options text = .ok d) :
    (∀ limit, depth text.toList ≤ limit → parse { options with maxDepth := limit } text = .ok d) ∧
    ∀ limit, limit < depth text.toList →
      ∃ e, parse { options with maxDepth := limit } text = .error (.malformed e) ∧
        TooDeep limit text.toList e := by
  have hstart := start_of_ok h
  have hd := (parse_ok_iff options text d hstart).mp h
  constructor
  · intro limit hle
    exact (parse_ok_iff { options with maxDepth := limit } text d hstart).mpr
      (Nesting.script_of_depth_le hd hle)
  · intro limit hlt
    obtain ⟨e, hread, he⟩ := Nesting.read_of_deep hd hlt
    refine ⟨e, (parse_eq (by exact hstart) text).trans ?_, he⟩
    rw [hread]
    rfl

theorem parse_nesting_of_overwritten :
    ∃ d, parse ⟨none, 5⟩ "FUNC f(a=[[]], a=1) BEGIN x END @k=\"v\";" = .ok d ∧
      parse ⟨none, 3⟩ "FUNC f(a=[[]], a=1) BEGIN x END @k=\"v\";" = .ok d ∧
      ∃ e, parse ⟨none, 2⟩ "FUNC f(a=[[]], a=1) BEGIN x END @k=\"v\";" = .error (.malformed e) ∧
        TooDeep 2 "FUNC f(a=[[]], a=1) BEGIN x END @k=\"v\";".toList e := by
  have hrun : (parse ⟨none, 5⟩ "FUNC f(a=[[]], a=1) BEGIN x END @k=\"v\";").toBool = true := by
    decide +kernel
  have hdepth : depth "FUNC f(a=[[]], a=1) BEGIN x END @k=\"v\";".toList = 3 := by decide +kernel
  cases hp : parse ⟨none, 5⟩ "FUNC f(a=[[]], a=1) BEGIN x END @k=\"v\";" with
  | error e => simp [hp, Except.toBool] at hrun
  | ok d =>
    obtain ⟨hok, herror⟩ := parse_nesting ⟨none, 5⟩ _ d hp
    exact ⟨d, rfl, hok 3 (by omega), herror 2 (by omega)⟩

end FuncScript.Script
