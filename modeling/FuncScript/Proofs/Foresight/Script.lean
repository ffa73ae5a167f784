import FuncScript.Proofs.Brink.Block
import FuncScript.Proofs.Foresight.Block
import FuncScript.Proofs.Nesting.Script

/-!
A refusal stands as soon as the character that it is about is read. Whatever follows that character,
the text is refused with the same error, unless a level is missing.
-/

namespace FuncScript

open Nesting (BeginsAt beginsAt_add)

variable {α β : Type} {s t : State} {d k m n M : Nat} {P : Prop}

theorem Grammar.name_concat {w : List Char} {c : Char} {a : String} (h : Grammar.name w a)
    (hc : Rule.GoesOnName c) : ∃ b, Grammar.name (w ++ [c]) b := by
  obtain ⟨first, t, rfl, hfirst, ht⟩ := Phrase.one_bind_iff.mp h
  obtain ⟨rest, hrest, rfl⟩ := Phrase.bind_pure_iff.mp ht
  obtain ⟨rfl, hall⟩ := Phrase.star_one_iff.mp hrest
  have hmore : ∀ e ∈ t ++ [c], CharClass.nameContinue.contains e = true := by
    simp only [List.forall_mem_append, List.forall_mem_singleton]
    exact ⟨hall, hc⟩
  exact ⟨_, Phrase.one_bind_iff.mpr ⟨first, t ++ [c], rfl, hfirst,
    Phrase.bind_pure_iff.mpr ⟨t ++ [c], Phrase.star_one_iff.mpr ⟨rfl, hmore⟩, rfl⟩⟩⟩

namespace Rule

variable {r : Rule α} {f : α → Rule β} {B C : Phrase Unit} {L : Phrase α}

def MissesBlock (B : Phrase Unit) (r : Rule α) (s : State) : Prop :=
  ∃ k, r.Trips s k ∧ BeginsAt s k ∧ s.Behind B (s.cursor + k)

def Answers (m : Nat) (B : Phrase Unit) (r : Rule α) (s : State) : Prop :=
  (∃ o, r.Candid True m s o) ∨ r.MissesBlock B s

def Tidy (L : Phrase α) (r : Rule α) (s : State) : Prop :=
  ∀ a j notes, r.Gives s ⟨some a, j, notes⟩ →
    ∃ w y, s.rest = w ++ y ∧ L w a ∧ j = s.cursor + w.length ∧ r.Passes s a w.length

theorem tidy_of_tries (h : r.Tries P Never L s) : r.Tidy L s := by
  intro a j notes hg
  obtain ⟨o, ho, hn, hr⟩ := h
  obtain ⟨hfound, hstop⟩ := hg.agree ho
  obtain ⟨w, y, he, hw, hat⟩ := hr.sound a hfound.symm
  exact ⟨w, y, he, hw, hstop.trans hat, Tries.passes ⟨o, ho, hn, hr⟩ he hw (by simp)⟩

theorem tidy_name : name.Tidy Grammar.name s := by
  intro a j notes hg
  obtain ⟨o, ho, hn, hr⟩ := tries_name (P := True) (s := s)
  obtain ⟨hfound, hstop⟩ := hg.agree ho
  obtain ⟨w, y, he, hw, hat⟩ := hr.sound a hfound.symm
  refine ⟨w, y, he, hw, hstop.trans hat, Tries.passes ⟨o, ho, hn, hr⟩ he hw ?_⟩
  rintro c z rfl hc
  obtain ⟨b, hb⟩ := Grammar.name_concat hw hc
  have hlonger := ((hr.exact trivial).maximal (w ++ [c]) z b (by simpa using he) hb).2
  rw [List.length_append, List.length_singleton] at hlonger
  omega

theorem MissesBlock.behind {w y : List Char} {a : α} (h : (f a).MissesBlock B (s.moved w.length))
    (he : s.rest = w ++ y) (hw : L w a) (hr : r.Passes s a w.length) :
    (r >>= f).MissesBlock (L >>= fun _ => B) s := by
  obtain ⟨k, hk, hat, hbehind⟩ := h
  refine ⟨w.length + k, hr.trips hk, beginsAt_add hat, ?_⟩
  rw [← Nat.add_assoc]
  exact hbehind.prepend he hw

theorem Answers.bind (h : ∃ o, r.Candid True m s o) (htidy : r.Tidy L s)
    (hf : ∀ a n, s.cursor + n ≤ s.text.size → (f a).Answers m B (s.moved n)) :
    (r >>= f).Answers m (L >>= fun _ => B) s := by
  obtain ⟨⟨found, j, notes⟩, ho⟩ := h
  cases found with
  | none => exact .inl ⟨_, ho.bind_none⟩
  | some a =>
    obtain ⟨w, y, he, hw, rfl, hpass⟩ := htidy a j notes ho.gives
    rcases hf a w.length ho.within with ⟨o', ho'⟩ | hmiss
    · exact .inl ⟨_, ho.bind_some ho'⟩
    · exact .inr (hmiss.behind he hw hpass)

theorem Answers.blanks_bind {f : Unit → Rule β} (hin : s.cursor ≤ s.text.size)
    (hf : ∀ n, s.cursor + n ≤ s.text.size → Solid (s.moved n).rest →
      (f ()).Answers m B (s.moved n)) :
    (blanks >>= f).Answers m (Phrase.blanks >>= fun _ => B) s := by
  obtain ⟨⟨found, j, notes⟩, ho⟩ := candid_blanks (N := True) (m := m) hin
  obtain ⟨b, y, he, hb, hy, hg⟩ := blanks_split s
  obtain ⟨hfound, hstop⟩ := ho.gives.agree hg
  dsimp only at hfound hstop
  subst hfound hstop
  have hsolid : Solid (s.moved b.length).rest := by rwa [State.rest_moved_of_append he]
  rcases hf b.length ho.within hsolid with ⟨o', ho'⟩ | hmiss
  · exact .inl ⟨_, ho.bind_some ho'⟩
  · exact .inr (hmiss.behind he hb (passes_blanks he hb hy))

theorem block_run (hs : s.Room d n) (log : FailureLog) :
    block { s with failures := log } = blockWithin n { s with failures := log } :=
  congrArg (fun levels => blockWithin levels { s with failures := log }) hs.levels

theorem candid_block {N : Prop} {o : Outcome Span} (hs : s.Room d n)
    (h : (blockWithin n).Candid N m s o) : block.Candid N m s o := by
  refine ⟨fun log => (block_run hs log).trans (h.gives log), h.advanced, h.within, h.noted, ?_⟩
  refine h.settled.imp id fun hset t ht log => ?_
  have hroom : t.Room d n := ⟨ht.depth.trans hs.depth, ht.limit.trans hs.limit⟩
  exact (block_run hroom log).trans (hset t ht log)

theorem answers_block {g : Span → Rule β} (hs : s.Room 0 M) (hin : s.cursor ≤ s.text.size)
    (hm : m ≤ s.text.size) (hg : ∀ span j, span.stop ≤ j → j ≤ s.text.size →
      ∃ o, (g span).Candid True m { s with cursor := j } o) :
    (block >>= g).Answers m (Grammar.blockBrink M) s := by
  by_cases hat : BeginsAt s 0
  · rcases Foresight.block_ends (m := m) M 0 s hs hin hat with
      ⟨span, j, notes, hspan, hfound⟩ | ⟨notes, hnone, x, hx, hsize⟩ | ⟨k, hk, hat'⟩
    · obtain ⟨o, ho⟩ := hg span j hspan hfound.within
      exact .inl ⟨_, (candid_block hs hfound).bind_some ho⟩
    · have hblock : (blockWithin M).Candid True m s ⟨none, s.cursor, notes⟩ :=
        ⟨hnone, Nat.le_refl _, hin, fun _ _ => ⟨x, hx, Nat.le_trans hin hsize⟩,
          .inl (.inl ⟨x, hx, Nat.le_trans hm hsize⟩)⟩
      exact .inl ⟨_, (candid_block hs hblock).bind_none⟩
    · have hblock := hk.congr (block_run hs)
      exact .inr ⟨k, hblock.trips.bind, hat', (wants_block hs).of_stumbles hblock⟩
  · obtain ⟨notes, hblock⟩ := candid_missing (m := m) hs hin (Bool.eq_false_iff.mpr hat)
    exact .inl ⟨_, (candid_block hs hblock).bind_none⟩

theorem answers_behindConfiguration {key : String} {fields : Entries Value} (hs : s.Room 0 M)
    (hin : s.cursor ≤ s.text.size) (hm : m ≤ s.text.size) :
    (Nesting.behindConfiguration key fields).Answers m
      (Phrase.blanks >>= fun _ => Grammar.blockBrink M) s := by
  refine Answers.blanks_bind hin fun n hn _ => answers_block (hs.moved n) hn hm ?_
  intro span j hspan hj
  obtain ⟨o, ho⟩ := candid_slice (N := True) (m := m) (s := { s with cursor := j }) hj hspan
  refine ho.bind fun raw _ => ?_
  have htags := Plan.annotations.exists_candid (m := m) M { s with cursor := o.stop }
    (Plan.compositional_candid _).annotations hs.levels ho.within
  rw [Plan.rule_annotations] at htags
  obtain ⟨o', ho'⟩ := htags
  exact ho'.bind fun tags _ => ⟨_, candid_pure ho'.within _⟩

theorem answers_behindName {key : String} (hs : s.Room 0 M) (hin : s.cursor ≤ s.text.size)
    (hm : m ≤ s.text.size) (hsolid : Solid s.rest) : (Nesting.behindName key).Answers m (do
      let _ ← Grammar.configuration M
      Phrase.blanks
      Grammar.blockBrink M) s := by
  have hvalues := (Plan.object Plan.value).exists_candid (m := m) M s
    Plan.candid_object hs.levels hin
  rw [Plan.rule_object, Plan.rule_value] at hvalues
  have htries := (reads_configuration (P := False) (M := M) (.inl hs.levels) False.elim hsolid).tries
  refine Answers.bind hvalues (tidy_of_tries htries) fun fields n hn => ?_
  exact answers_behindConfiguration (hs.moved n) hn hm

theorem answers_definition (hs : s.Room 0 M) (hin : s.cursor ≤ s.text.size)
    (hm : m ≤ s.text.size) :
    (∃ o, definition.Candid True m s o) ∨ ∃ k, definition.Stumbles s k ∧ BeginsAt s k ∧
      s.Behind (Grammar.bodyBrink M) (s.cursor + k) := by
  have hinside : (blanks >>= fun _ => keyword .func >>= fun _ => blanks >>= fun _ => name >>=
      fun key => blanks >>= fun _ => Nesting.behindName key).Answers m (Grammar.bodyBrink M) s := by
    unfold Grammar.bodyBrink Grammar.header
    simp only [LawfulMonad.bind_assoc]
    refine Answers.blanks_bind hin fun a ha _ => ?_
    obtain ⟨o, hword, -⟩ := candid_keyword (m := m) (s := s.moved a) .func ha
    refine Answers.bind ⟨o, hword⟩ (tidy_of_tries (reads_keyword (P := False) .func).tries) ?_
    intro _ b hb
    refine Answers.blanks_bind hb fun c hc _ => ?_
    have hname := Plan.name.exists_candid (m := m) M _ (Plan.compositional_candid M).name
      (((hs.moved a).moved b).moved c).levels hc
    refine Answers.bind hname tidy_name fun key d hd => ?_
    refine Answers.blanks_bind hd fun e he hsolid => ?_
    exact answers_behindName (((((hs.moved a).moved b).moved c).moved d).moved e) he hm hsolid
  rw [Nesting.definition_eq]
  rcases hinside with ⟨o, ho⟩ | ⟨k, hk, hat, hbehind⟩
  · exact .inl ⟨_, ho.attempt hin⟩
  · exact .inr ⟨k, hk.attempt, hat, hbehind⟩

end Rule

namespace Script

variable {x y : List Char} {e : SyntaxError} {c : Char} {o : Outcome Definition}

theorem le_of_stumbles (h : Rule.definition.Stumbles (start M x) k) : k ≤ x.length := by
  obtain ⟨notes, hg, hblames⟩ := h
  have hlast : (start M x).cursor + k ≤ (FailureLog.noteAll {} notes).furthest :=
    (FailureLog.remains_noteAll notes).furthest _ hblames.mem
  have hwithin : (FailureLog.noteAll {} notes).furthest ≤ x.length := (honest_notes hg).within
  exact Nat.le_trans (Nat.le_of_eq (Nat.zero_add k).symm) (Nat.le_trans hlast hwithin)

theorem le_furthest_of_overruns (h : o.Overruns m) :
    m ≤ (FailureLog.noteAll {} (complaints o)).furthest := by
  obtain ⟨n, hn, hm⟩ : ∃ n ∈ complaints o, m ≤ n.1 := by
    unfold complaints
    rcases h with ⟨n, hn, hm⟩ | ⟨hsome, hm⟩
    · refine ⟨n, ?_, hm⟩
      split
      · exact List.mem_append_left _ hn
      · exact hn
    · obtain ⟨d, hd⟩ := Option.isSome_iff_exists.mp hsome
      rw [hd]
      exact ⟨_, List.mem_append_right _ (List.mem_singleton_self _), hm⟩
  exact Nat.le_trans hm ((FailureLog.remains_noteAll (complaints o)).furthest n hn)

theorem start_of_error (hg : Rule.definition.Gives (start M x) o)
    (h : read M x.toArray = .error e) :
    e.location.start.offset = (FailureLog.noteAll {} (complaints o)).furthest := by
  obtain ⟨rfl, hs⟩ := (read_error_iff hg).mp h
  exact start_syntaxError (furthest_complaints_le hg hs)

theorem found_of_error (h : read M x.toArray = .error e) :
    e.found = x[e.location.start.offset]? := by
  obtain ⟨o, hg, -⟩ := @exists_reading False M M x (.inl rfl) False.elim
  rw [start_of_error hg h]
  obtain ⟨rfl, -⟩ := (read_error_iff hg).mp h
  exact List.getElem?_toArray

theorem start_lt_of_found (h : read M x.toArray = .error e) (hfound : e.found = some c) :
    e.location.start.offset < x.length :=
  (List.getElem?_eq_some_iff.mp ((found_of_error h).symm.trans hfound)).1

theorem take_of_behind {B : Phrase Unit} (h : (start M x).Behind B k) : B (x.take k) () := by
  obtain ⟨u, y, he, hu, rfl⟩ := h
  rw [rest_start] at he
  rwa [show (start M x).cursor + u.length = u.length from Nat.zero_add _, he, List.take_left]

theorem read_congr_or_begins (h : read M x.toArray = .error e) (hfound : e.found = some c) :
    (∀ y : List Char, y.take (e.location.start.offset + 1) = x.take (e.location.start.offset + 1) →
      read M y.toArray = .error e) ∨
    (Rule.tooDeep M ∈ e.expected ∧ Grammar.bodyBrink M (x.take e.location.start.offset) () ∧
      Keyword.blockBegin.startsAt (x.drop e.location.start.offset) = true) := by
  have hlt := start_lt_of_found h hfound
  have hs : (start M x).Room 0 M := ⟨rfl, (Nat.zero_add M).symm⟩
  rcases Rule.answers_definition hs (Nat.zero_le _) hlt with ⟨o, ho⟩ | ⟨k, hk, hbegin, hbehind⟩
  · left
    intro y hshare
    have hat := start_of_error ho.gives h
    have hy : Rule.definition.Gives (start M y) o := by
      -- what is noted behind the character would be further on than the error
      rcases ho.settled with hover | hset
      · have hle := le_furthest_of_overruns hover
        omega
      · exact hset _ ⟨rfl, rfl, rfl, hshare⟩
    obtain ⟨heq, -⟩ := (read_error_iff ho.gives).mp h
    refine (read_error_iff hy).mpr ⟨?_, fun d hd => ?_⟩
    · rw [heq]
      refine (syntaxError_congr (fun i hi => ?_) ?_).symm
      · have hget := congrArg (·[i]?) hshare
        simpa only [List.getElem?_take_of_lt (show i < e.location.start.offset + 1 by omega),
          List.getElem?_toArray] using hget
      · rwa [← hat]
    · have hle := le_furthest_of_overruns (m := o.stop)
        (.inr ⟨Option.isSome_iff_exists.mpr ⟨d, hd⟩, Nat.le_refl _⟩)
      have hlen := congrArg List.length hshare
      rw [List.length_take, List.length_take] at hlen
      omega
  · right
    obtain ⟨e', he', hat, -, hdeep⟩ := Nesting.read_of_stumbles hk (le_of_stumbles hk)
    obtain rfl : e' = e := Except.error.inj (he'.symm.trans h)
    rw [BeginsAt, rest_start] at hbegin
    rw [show (start M x).cursor + k = k from Nat.zero_add k] at hbehind
    rw [hat]
    exact ⟨hdeep, take_of_behind hbehind, hbegin⟩

theorem read_congr (h : read M x.toArray = .error e) (hfound : e.found = some c)
    (hlevel : Rule.tooDeep M ∉ e.expected)
    (hshare : y.take (e.location.start.offset + 1) = x.take (e.location.start.offset + 1)) :
    read M y.toArray = .error e := by
  rcases read_congr_or_begins h hfound with hcongr | ⟨hdeep, -⟩
  · exact hcongr y hshare
  · exact absurd hdeep hlevel

/-- An error depends on the text up to the character that it is about, unless a level was missing
there. A text that goes on otherwise behind that character, or ends there, is refused with the same
error. -/
theorem parse_malformed_congr (options : Options) (text text' : String) (e : SyntaxError) (c : Char)
    (h : parse options text = .error (.malformed e)) (hfound : e.found = some c)
    (hlevel : .other ("nesting depth of at most " ++ toString options.maxDepth) ∉ e.expected)
    (hshare : text'.toList.take (e.location.start.offset + 1) =
      text.toList.take (e.location.start.offset + 1)) :
    parse options text' = .error (.malformed e) := by
  obtain ⟨hstart, hread⟩ := parse_malformed_iff.mp h
  exact parse_malformed_iff.mpr ⟨hstart, read_congr hread hfound hlevel hshare⟩

theorem parse_malformed_congr_of_ending :
    ∃ e, parse {} "FUNC f() BEGIN x ENDING @k=\"v\";" = .error (.malformed e) ∧
      e.found = some 'I' ∧ e.location.start.offset = 20 ∧
      .other ("nesting depth of at most " ++ toString ({} : Options).maxDepth) ∉ e.expected ∧
      "FUNC f() BEGIN x ENDI".toList.take 21 =
        "FUNC f() BEGIN x ENDING @k=\"v\";".toList.take 21 ∧
      parse {} "FUNC f() BEGIN x ENDI" = .error (.malformed e) := by
  have hshare : "FUNC f() BEGIN x ENDI".toList.take 21 =
      "FUNC f() BEGIN x ENDING @k=\"v\";".toList.take 21 := by decide +kernel
  obtain ⟨e, hp, hfound, hat, hlevel⟩ := malformed_of_run {} "FUNC f() BEGIN x ENDING @k=\"v\";"
    (fun e => e.found = some 'I' ∧ e.location.start.offset = 20 ∧
      .other ("nesting depth of at most " ++ toString ({} : Options).maxDepth) ∉ e.expected)
    (by decide +kernel)
  refine ⟨e, hp, hfound, hat, hlevel, hshare, ?_⟩
  exact parse_malformed_congr {} _ _ e 'I' hp hfound hlevel (by rw [hat, hshare])

end Script

end FuncScript
