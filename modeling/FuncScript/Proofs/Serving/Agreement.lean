import FuncScript.Command.Run
import FuncScript.Proofs.Boundary
import FuncScript.Proofs.Serving.Budget

/-!
One text, given to the command and posted to the service. The command takes the blanks at its end
off before it reads, the service does not; every script ends in a semicolon, so a text with blanks
at its end is never one as it stands.
-/

namespace FuncScript

/-- The text in two parts, of which the second is the longest run of blanks that it ends in. -/
structure Trimmed (text s w : String) : Prop where
  text : text = s ++ w
  blank : ∀ c ∈ w.toList, Blank.isBlank c = true
  last : ∀ c, s.toList.getLast? = some c → Blank.isBlank c = false

namespace Blank

theorem trimEnd_append {s w : List Char} (hw : ∀ c ∈ w, isBlank c = true)
    (hs : ∀ c, s.getLast? = some c → isBlank c = false) : trimEnd (s ++ w) = s := by
  have hrun : (s.reverse.dropWhile isBlank) = s.reverse := by
    cases hr : s.reverse with
    | nil => rfl
    | cons c rest =>
      have hc : isBlank c = false := hs c (by rw [List.getLast?_eq_head?_reverse, hr]; rfl)
      rw [List.dropWhile_cons_of_neg (by rw [hc]; nofun)]
  rw [trimEnd, List.reverse_append, List.dropWhile_append_of_pos fun c hc =>
    hw c (List.mem_reverse.mp hc), hrun, List.reverse_reverse]

end Blank

variable {text s w : String}

theorem Trimmed.trimEnd (h : Trimmed text s w) : String.ofList (Blank.trimEnd text.toList) = s := by
  rw [h.text, String.toList_append, Blank.trimEnd_append h.blank h.last, String.ofList_toList]

theorem trimmed_of_last {c : Char} (h : text = s ++ w)
    (hw : ∀ c ∈ w.toList, Blank.isBlank c = true) (hlast : s.toList.getLast? = some c)
    (hc : Blank.isBlank c = false) : Trimmed text s w := by
  refine ⟨h, hw, fun d hd => ?_⟩
  rw [hlast, Option.some.injEq] at hd
  rwa [← hd]

namespace Phrase

variable {α β : Type} {L : Phrase α} {f : α → Phrase β} {c : Char}

def Ends (L : Phrase α) (c : Char) : Prop := ∀ w a, L w a → w.getLast? = some c

theorem Ends.bind_right (h : ∀ a, (f a).Ends c) : (L >>= f).Ends c := by
  rintro _ b ⟨u, v, a, rfl, _, hv⟩
  rw [List.getLast?_append, h a v b hv, Option.some_or]

theorem Ends.map (h : L.Ends c) (g : α → β) : (L >>= fun a => pure (g a)).Ends c := by
  intro w b hb
  obtain ⟨a, ha, _⟩ := bind_pure_iff.mp hb
  exact h w a ha

theorem ends_symbol (c : Char) : (symbol c).Ends c := by
  rintro _ d ⟨rfl, hd⟩
  rw [beq_iff_eq.mp hd]
  rfl

end Phrase

namespace Grammar

open Phrase

theorem ends_annotations : annotations.Ends ';' := by
  rw [annotations_eq]
  exact Ends.bind_right fun first => Ends.map (Ends.bind_right fun rest =>
    Ends.bind_right fun _ => Ends.map (ends_symbol ';') fun _ => rest) _

theorem ends_script (levels : Nat) : (script levels).Ends ';' := by
  rw [script_eq]
  exact Ends.bind_right fun _ => Ends.bind_right fun _ => Ends.bind_right fun _ =>
    Ends.bind_right fun _ => Ends.bind_right fun _ => Ends.bind_right fun _ => Ends.bind_right fun _ =>
      Ends.bind_right fun _ => Ends.bind_right fun _ => Ends.map ends_annotations _

end Grammar

namespace Script

theorem not_parse_of_trimmed (h : Trimmed text s w) (hw : w ≠ "") (d : Definition) :
    parse {} text ≠ .ok d := by
  intro hd
  have hscript := read_ok_iff.mp ((parse_ok_iff_read (.inl rfl)).mp hd)
  have hlast := Grammar.ends_script _ _ _ hscript
  obtain ⟨c, hc⟩ : ∃ c, w.toList.getLast? = some c := by
    rw [← Option.isSome_iff_exists, List.getLast?_isSome]
    simpa using hw
  rw [h.text, String.toList_append, List.getLast?_append, hc, Option.some_or,
    Option.some.injEq] at hlast
  have hblank := h.blank c (List.mem_of_getLast? hc)
  rw [hlast] at hblank
  exact absurd hblank (by decide)

theorem endOfInput_of_trimmed {d : Definition} {e : SyntaxError} (h : Trimmed text s w)
    (hw : w ≠ "") (hd : parse {} s = .ok d) (he : parse {} text = .error (.malformed e)) :
    e.expected = [.endOfInput] ∧ e.location.start.offset = s.length ∧ e.found = w.toList.head? := by
  have hscript := read_ok_iff.mp ((parse_ok_iff_read (.inl rfl)).mp hd)
  obtain ⟨e', hread, hexpected, hoffset, hfound⟩ := read_append hscript (y := w.toList) (by simpa using hw)
  rw [parse_eq (.inl rfl), h.text, String.toList_append, hread] at he
  cases he
  exact ⟨hexpected, by rw [hoffset, String.length_toList], hfound⟩

end Script

namespace Command

open Service (Brings Posts Fits)

variable {env : Environment} {words : List String} {shared : Shared} {flags : ParseFlags}
  {d : Definition} {e : SyntaxError}

structure Reads (env : Environment) (words : List String) (shared : Shared) (flags : ParseFlags)
    (text : String) : Prop where
  words : Invocation.ofWords words = .parse shared flags
  startRule : flags.startRule = none
  source : flags.path? = none ∧ env.input = text.toUTF8 ∨
    ∃ path, flags.path? = some path ∧ env.file path = .ok text.toUTF8

theorem textOf_toUTF8 (text : String) : textOf text.toUTF8 = .ok text := by
  rw [textOf, Utf8.fromUTF8?_toUTF8]

theorem Reads.readSource (h : Reads env words shared flags text) :
    readSource env flags.path? = .ok text := by
  rcases h.source with ⟨hpath, hinput⟩ | ⟨path, hpath, hfile⟩
  · rw [hpath, Command.readSource, hinput, textOf_toUTF8]
  · simp only [hpath, Command.readSource, hfile, textOf_toUTF8]

theorem Reads.run (h : Reads env words shared flags text) : Command.run env words =
    (parseText shared flags text).shown (logFilter env (.parse shared flags)) := by
  rw [Command.run, h.words, outcome, parse, h.readSource]

theorem Reads.run_ok (h : Reads env words shared flags text) (ht : Trimmed text s w)
    (hd : Script.parse {} s = .ok d) : (Command.run env words).exit = 0 ∧
      (Command.run env words).output = if shared.quiet then "" else definitionText shared.format d := by
  rw [h.run, parseText, h.startRule, ht.trimEnd, hd]
  exact ⟨rfl, rfl⟩

theorem Reads.run_malformed (h : Reads env words shared flags text) (ht : Trimmed text s w)
    (he : Script.parse {} s = .error (.malformed e)) : (Command.run env words).exit = 1 ∧
      (Command.run env words).output = "" ∧ (shared.format = .json →
        (Command.run env words).errorText = e.toJson.pretty ++ "\n") := by
  rw [h.run, parseText, h.startRule, ht.trimEnd, he]
  refine ⟨rfl, rfl, fun hformat => ?_⟩
  simp [Outcome.errorText, Outcome.shown, scriptReport, syntaxReport, hformat, Report.isShown,
    Report.text]

structure Exits (s : String) (o : Outcome) : Prop where
  success : o.exit = 0 ↔ ∃ d, Script.parse {} s = .ok d
  failure : o.exit ≠ 0 → o.exit = 1 ∧ o.output = ""

structure Agree (s w : String) (r : Request) (response : Response) (shared : Shared)
    (o : Outcome) : Prop where
  status : w = "" → (response.status = 200 ↔ o.exit = 0)
  accepted : response.status = 200 → o.exit = 0 ∧ ∃ d,
    Brings r 200 { code := .ok, data := some d } response ∧
      (shared.format = .json → shared.quiet = false → o.output = d.toJson.pretty ++ "\n")
  refused : w = "" → response.status ≠ 200 → ∃ e,
    Brings r 400 { code := .syntaxError, message := e.message, error := some e } response ∧
      (shared.format = .json → o.errorText = e.toJson.pretty ++ "\n")
  blank : w ≠ "" → response.status ≠ 200
  behind : w ≠ "" → o.exit = 0 → ∃ e,
    Brings r 400 { code := .syntaxError, message := e.message, error := some e } response ∧
      e.expected = [.endOfInput] ∧ e.location.start.offset = s.length ∧
        e.found = w.toList.head?

theorem Reads.exits (h : Reads env words shared flags text) (ht : Trimmed text s w) :
    Exits s (Command.run env words) := by
  rcases Script.parse_default s with ⟨d, hd⟩ | ⟨e, he⟩
  · obtain ⟨hexit, _⟩ := h.run_ok ht hd
    exact ⟨⟨fun _ => ⟨d, hd⟩, fun _ => hexit⟩, fun hne => absurd hexit hne⟩
  · obtain ⟨hexit, houtput, _⟩ := h.run_malformed ht he
    refine ⟨⟨fun h0 => ?_, fun ⟨d, hd⟩ => ?_⟩, fun _ => ⟨hexit, houtput⟩⟩
    · omega
    · rw [he] at hd
      cases hd

theorem Exits.same {other : Outcome} {o : Outcome} (h : Exits s o) (hother : Exits s other) :
    other.exit = o.exit := by
  by_cases hd : ∃ d, Script.parse {} s = .ok d
  · rw [h.success.mpr hd, hother.success.mpr hd]
  · rw [(h.failure fun h0 => hd (h.success.mp h0)).1,
      (hother.failure fun h0 => hd (hother.success.mp h0)).1]

variable {maxSourceSize bodyLimit : Nat} {r : Request} {response : Response}

theorem Reads.agree_script (h : Reads env words shared flags text) (ht : Trimmed text text "")
    (hd : Script.parse {} text = .ok d)
    (hbrings : Brings r 200 { code := .ok, data := some d } response) :
    Agree text "" r response shared (Command.run env words) := by
  obtain ⟨hexit, houtput⟩ := h.run_ok ht hd
  constructor
  case status => exact fun _ => ⟨fun _ => hexit, fun _ => hbrings.status⟩
  case accepted =>
    refine fun _ => ⟨hexit, d, hbrings, fun hformat hquiet => ?_⟩
    rw [houtput, hquiet, hformat]
    rfl
  case refused => exact fun _ hne => absurd hbrings.status hne
  case blank => exact fun hne => absurd rfl hne
  case behind => exact fun hne => absurd rfl hne

theorem Reads.agree_malformed (h : Reads env words shared flags text) (ht : Trimmed text text "")
    (he : Script.parse {} text = .error (.malformed e))
    (hbrings : Brings r 400 { code := .syntaxError, message := e.message, error := some e } response) :
    Agree text "" r response shared (Command.run env words) := by
  obtain ⟨hexit, _, herror⟩ := h.run_malformed ht he
  have hstatus := hbrings.status
  constructor
  case status => exact fun _ => by omega
  case accepted => exact fun h200 => by omega
  case refused => exact fun _ _ => ⟨e, hbrings, herror⟩
  case blank => exact fun hne => absurd rfl hne
  case behind => exact fun hne => absurd rfl hne

theorem Reads.agree_blank (h : Reads env words shared flags text) (ht : Trimmed text s w)
    (hw : w ≠ "") (he : Script.parse {} text = .error (.malformed e))
    (hbrings : Brings r 400 { code := .syntaxError, message := e.message, error := some e } response) :
    Agree s w r response shared (Command.run env words) := by
  have hstatus := hbrings.status
  constructor
  case status => exact fun h0 => absurd h0 hw
  case accepted => exact fun h200 => by omega
  case refused => exact fun h0 => absurd h0 hw
  case blank => exact fun _ => by omega
  case behind =>
    intro _ hexit
    obtain ⟨d, hd⟩ := (h.exits ht).success.mp hexit
    exact ⟨e, hbrings, Script.endOfInput_of_trimmed ht hw hd he⟩

theorem Reads.agree (h : Reads env words shared flags text) (ht : Trimmed text s w)
    (hposts : Posts r text.toUTF8) (hfits : Fits maxSourceSize bodyLimit text.toUTF8)
    (howed : Service.Owed maxSourceSize bodyLimit r response) :
    Agree s w r response shared (Command.run env words) := by
  by_cases hd : ∃ d, Script.parse {} text = .ok d
  · obtain ⟨d, hd⟩ := hd
    obtain rfl : w = "" := Decidable.byContradiction fun hw => Script.not_parse_of_trimmed ht hw d hd
    obtain rfl : text = s := by rw [ht.text, String.append_empty]
    exact h.agree_script ht hd (howed.accepted text d hposts hfits hd)
  · obtain ⟨e, he, hbrings⟩ := howed.refused text hposts hfits fun d h => hd ⟨d, h⟩
    by_cases hw : w = ""
    · subst hw
      obtain rfl : text = s := by rw [ht.text, String.append_empty]
      exact h.agree_malformed ht he hbrings
    · exact h.agree_blank ht hw he hbrings

theorem not_agree_late {shared : Shared} {o : Outcome} (h : response.status = 503) :
    ¬ Agree s "" r response shared o := by
  intro hagree
  obtain ⟨e, hbrings, _⟩ := hagree.refused rfl (by omega)
  have hstatus := hbrings.status
  omega

theorem getLast?_longScript : Service.longScript.toList.getLast? = some ';' := by
  have hend : "@k=\"v\";".toList.getLast? = some ';' := by decide
  unfold Service.longScript
  rw [String.toList_append, List.getLast?_append, hend, Option.some_or]

/-- On every text the command's exit code goes by what is left in front of the blanks at the end. The
service, where it lets the text through and does not give up parsing it, answers as the command does,
except that blanks at the end are refused. -/
theorem run_agrees {text s w : String} {env : Environment} {words : List String} {shared : Shared}
    {flags : ParseFlags} {a : Arrival} (service : Service) (ht : Trimmed text s w)
    (h : Reads env words shared flags text) (hdoc : a.schedule.Documented)
    (hposts : Posts a.request text.toUTF8)
    (hfits : Fits service.settings.maxSourceSize service.settings.bodyLimit text.toUTF8) :
    Exits s (run env words) ∧
      (∀ env' words' shared' flags', Reads env' words' shared' flags' text →
        (run env' words').exit = (run env words).exit) ∧
      ((service.limiter.check a.request.address a.time).1 = .allowed →
        a.schedule.timeout service.settings.timeLimit (Service.parsing text) ≠ .elapsed →
          Agree s w a.request (service.handle a).1 shared (run env words)) ∧
      ((service.limiter.check a.request.address a.time).1 = .allowed →
        a.schedule.timeout service.settings.timeLimit (Service.parsing text) = .elapsed →
          Brings a.request 503 (Service.late service.settings) (service.handle a).1 ∧
            service.settings.timeLimit * Schedule.millisecond ≤
              a.schedule.duration (Service.parsing text)) ∧
      ∀ seconds, (service.limiter.check a.request.address a.time).1 = .retryAfter seconds →
        Brings a.request 429 ⟨.rateLimited, "rate limit exceeded", none, none, some seconds⟩
          (service.handle a).1 := by
  have hmethod : a.request.method ≠ .options := by
    rw [hposts.method]
    nofun
  have hresponse := congrArg Prod.fst (@Service.handle_of_ne service a hmethod)
  dsimp only at hresponse
  refine ⟨h.exits ht, fun _ _ _ _ hother => (h.exits ht).same (hother.exits ht), ?_, ?_, ?_⟩
  · intro hallowed htime
    rw [hresponse, hallowed]
    refine h.agree ht hposts hfits (Service.owed_sent hdoc ?_)
    rwa [Service.overdue_iff hposts hfits]
  · intro hallowed hlate
    rw [hresponse, hallowed]
    exact ⟨Service.brings_late ⟨text, hposts, hfits, hlate⟩, Nat.not_lt.mp fun hlt =>
      hdoc.prompt service.settings.timeLimit (Service.parsing text) hlt hlate⟩
  · intro seconds hrefused
    rw [hresponse, hrefused]
    exact Service.brings_sent rfl

theorem run_agrees_of_newline :
    let service : Service := ⟨⟨1024, 1024, 1000⟩, ⟨1, 60000, []⟩⟩
    let env : Environment :=
      ⟨"FUNC f() BEGIN END @k=\"v\";\n".toUTF8, fun _ => .error .noEntry, fun _ => none,
        fun _ => none⟩
    let a : Arrival := ⟨0, .steady Schedule.millisecond,
      Service.posting "FUNC f() BEGIN END @k=\"v\";\n" (.v4 1)⟩
    (run env ["--output", "json", "parse"]).exit = 0 ∧ ∃ e,
      Brings a.request 400 { code := .syntaxError, message := e.message, error := some e }
          (service.handle a).1 ∧
        e.expected = [.endOfInput] ∧ e.location.start.offset = 26 ∧ e.found = some '\n' := by
  intro service env a
  have ht : Trimmed "FUNC f() BEGIN END @k=\"v\";\n" "FUNC f() BEGIN END @k=\"v\";" "\n" :=
    trimmed_of_last (c := ';') (by decide) (by simp [Blank.isBlank_of_isWhitespace]) (by decide)
      (by decide)
  have h : Reads env ["--output", "json", "parse"] { output := some .json } {}
      "FUNC f() BEGIN END @k=\"v\";\n" := ⟨by decide, rfl, .inl ⟨rfl, rfl⟩⟩
  have hdoc : a.schedule.Documented := Schedule.documented_steady Schedule.millisecond
  obtain ⟨hexits, _, hagree, _⟩ := run_agrees service ht h hdoc
    (Service.posts_posting _ (.v4 1)) ⟨by decide, by decide⟩
  have htime := hdoc.prompt 1000 (Service.parsing "FUNC f() BEGIN END @k=\"v\";\n")
    (by decide : 1000000 < 1000 * 1000000)
  have hrun : (Script.parse {} "FUNC f() BEGIN END @k=\"v\";").toBool = true := by decide +kernel
  have hexit : (run env ["--output", "json", "parse"]).exit = 0 := by
    apply hexits.success.mpr
    cases hp : Script.parse {} "FUNC f() BEGIN END @k=\"v\";" with
    | ok d => exact ⟨d, rfl⟩
    | error e => simp [hp, Except.toBool] at hrun
  exact ⟨hexit, (hagree rfl htime).behind (by decide) hexit⟩

theorem not_run_agrees :
    let text := Service.longScript
    let service : Service := ⟨⟨text.toUTF8.size, text.toUTF8.size, 0⟩, ⟨1, 60000, []⟩⟩
    let env : Environment := ⟨text.toUTF8, fun _ => .error .noEntry, fun _ => none, fun _ => none⟩
    let a : Arrival := ⟨0, .steady Schedule.millisecond, Service.posting text (.v4 1)⟩
    Trimmed text text "" ∧ Reads env ["parse"] {} {} text ∧ a.schedule.Documented ∧
      Posts a.request text.toUTF8 ∧
        Fits service.settings.maxSourceSize service.settings.bodyLimit text.toUTF8 ∧
          (service.limiter.check a.request.address a.time).1 = .allowed ∧
            ¬ Agree text "" a.request (service.handle a).1 {} (run env ["parse"]) := by
  have htrimmed : Trimmed Service.longScript Service.longScript "" :=
    trimmed_of_last String.append_empty.symm (by simp) getLast?_longScript (by decide)
  generalize Service.longScript = text at htrimmed
  have hposts := Service.posts_posting text (.v4 1)
  have hfits := Service.fits_self text.toUTF8
  refine ⟨htrimmed, ⟨by decide, rfl, .inl ⟨rfl, rfl⟩⟩, Schedule.documented_steady _, hposts, hfits,
    rfl, ?_⟩
  rw [Service.handle_of_ne (by nofun)]
  exact not_agree_late (Service.brings_late (Service.overdue_of_zero rfl hposts hfits)).status

end Command

end FuncScript
