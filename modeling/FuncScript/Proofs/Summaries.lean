import FuncScript.Proofs.Fences.Embedding
import FuncScript.Summary

/-!
Summaries. What a script denotes has a text without line feeds for each of its parts, so its summary
has one line for each, and the lines are those of no other definition.
-/

namespace FuncScript

open Phrase

variable {α β : Type} {c : Char} {u v w y : List Char} {lines others : List (List Char)}

theorem split_at_first (hu : c ∉ u) (hw : c ∉ w) (h : u ++ c :: v = w ++ c :: y) :
    u = w ∧ v = y := by
  rcases split_cases h with ⟨d, z, rfl, hv⟩ | ⟨rfl, hv⟩ | ⟨d, z, rfl, hy⟩
  · obtain ⟨rfl, -⟩ := List.cons.inj hv
    exact absurd (List.mem_append_right u List.mem_cons_self) hw
  · exact ⟨rfl, (List.cons.inj hv).2⟩
  · obtain ⟨rfl, -⟩ := List.cons.inj hy
    exact absurd (List.mem_append_right w List.mem_cons_self) hu

def terminated (lines : List (List Char)) : List Char := lines.flatMap (· ++ ['\n'])

theorem terminated_cons (l : List Char) (lines : List (List Char)) :
    terminated (l :: lines) = l ++ '\n' :: terminated lines := by
  rw [terminated, List.flatMap_cons, List.append_assoc]
  rfl

theorem terminated_append (lines others : List (List Char)) :
    terminated (lines ++ others) = terminated lines ++ terminated others :=
  List.flatMap_append

theorem terminated_inj (h : ∀ l ∈ lines, '\n' ∉ l) (h' : ∀ l ∈ others, '\n' ∉ l)
    (he : terminated lines = terminated others) : lines = others := by
  induction lines generalizing others with
  | nil =>
    cases others with
    | nil => rfl
    | cons l others =>
      rw [terminated_cons] at he
      exact absurd he.symm (List.append_ne_nil_of_right_ne_nil l (List.cons_ne_nil _ _))
  | cons l lines ih =>
    obtain ⟨hl, hlines⟩ := List.forall_mem_cons.mp h
    cases others with
    | nil =>
      rw [terminated_cons] at he
      exact absurd he (List.append_ne_nil_of_right_ne_nil l (List.cons_ne_nil _ _))
    | cons l' others =>
      obtain ⟨hl', hothers⟩ := List.forall_mem_cons.mp h'
      rw [terminated_cons, terminated_cons] at he
      obtain ⟨rfl, hrest⟩ := split_at_first hl hl' he
      rw [ih hlines hothers hrest]

namespace Phrase

def Lacks (L : Phrase α) (c : Char) : Prop := ∀ w a, L w a → c ∉ w

variable {L L' : Phrase α}

theorem lacks_pure (a : α) (c : Char) : (pure a : Phrase α).Lacks c := by
  rintro w b ⟨rfl, -⟩
  exact List.not_mem_nil

theorem lacks_one {accepts : Char → Bool} (h : accepts c = false) : (one accepts).Lacks c := by
  rintro w d ⟨rfl, hd⟩ hc
  obtain rfl := List.mem_singleton.mp hc
  exact Bool.false_ne_true (h.symm.trans hd)

theorem Lacks.bind {f : α → Phrase β} (h : L.Lacks c) (hf : ∀ a, (f a).Lacks c) :
    (L >>= f).Lacks c := by
  rintro w b ⟨u, v, a, rfl, hu, hv⟩ hc
  rcases List.mem_append.mp hc with hc | hc
  · exact h u a hu hc
  · exact hf a v b hv hc

theorem Lacks.map (h : L.Lacks c) (g : α → β) : (L >>= fun a => pure (g a)).Lacks c :=
  h.bind fun a => lacks_pure (g a) c

theorem Lacks.either (h : L.Lacks c) (h' : L'.Lacks c) : (L.either L').Lacks c :=
  fun w a hw => hw.elim (h w a) (h' w a)

theorem Lacks.optional (h : L.Lacks c) : L.optional.Lacks c
  | _, none, rfl => List.not_mem_nil
  | w, some a, hw => h w a hw

theorem Lacks.star (h : L.Lacks c) : L.star.Lacks c := by
  intro w as hw
  induction hw with
  | nil => exact List.not_mem_nil
  | cons hu _ ih => exact fun hc => (List.mem_append.mp hc).elim (h _ _ hu) ih

end Phrase

namespace Grammar

theorem lacks_name (hs : CharClass.nameStart.contains c = false)
    (hc : CharClass.nameContinue.contains c = false) : name.Lacks c :=
  (lacks_one hs).bind fun _ => (lacks_one hc).star.map _

theorem lacks_number : number.Lacks '\n' := by
  have hdigits : (star (oneOf .digit)).Lacks '\n' := (lacks_one (by decide)).star
  have hwhole : whole.Lacks '\n' := by
    apply ((lacks_one (by decide)).map _).either
    exact (lacks_one (by decide)).bind fun _ => hdigits.map _
  have hfraction : fraction.Lacks '\n' := (lacks_one (by decide)).bind fun _ =>
    (lacks_one (by decide)).bind fun _ => hdigits.map _
  have hsign : (symbol '-').Lacks '\n' := lacks_one (by decide)
  have hnumeral : numeral.Lacks '\n' :=
    hsign.optional.bind fun _ => hwhole.bind fun _ => hfraction.optional.map _
  rintro w x ⟨n, hn, -⟩
  exact hnumeral w n hn

theorem lacks_string : string.Lacks '\n' := by
  rw [string_eq]
  have hhex : (oneOf .hexDigit).Lacks '\n' := lacks_one (by decide)
  have hunit : unit.Lacks '\n' := by
    rw [unit_eq]
    exact (lacks_one (by decide)).bind fun _ =>
      hhex.bind fun _ => hhex.bind fun _ => hhex.bind fun _ => hhex.map _
  have hescape : escape.Lacks '\n' := by
    rw [escape_eq]
    exact (lacks_one (by decide)).bind fun _ => ((lacks_one (by decide)).map _).either hunit
  have hplain : plain.Lacks '\n' := (lacks_one (by decide)).either
    ((lacks_one (by decide)).either (lacks_one (by decide)))
  have hquote : (symbol '"').Lacks '\n' := lacks_one (by decide)
  have hfragment : fragment.Lacks '\n' := (hescape.map _).either (hplain.map _)
  exact hquote.bind fun _ => hfragment.star.bind fun _ => hquote.map _

theorem lacks_letters : ∀ {cs : List Char},
    cs.all (fun c => !(CharClass.letter c).contains '\n') = true → (letters cs).Lacks '\n'
  | [], _ => lacks_pure () '\n'
  | c :: _, h => by
    rw [List.all_cons, Bool.and_eq_true, Bool.not_eq_true'] at h
    exact (lacks_one h.1).bind fun _ => lacks_letters h.2

theorem lacks_boolean : boolean.Lacks '\n' := by
  have hyes : (word .yes).Lacks '\n' := lacks_letters (by decide)
  have hno : (word .no).Lacks '\n' := lacks_letters (by decide)
  exact (hyes.map _).either (hno.map _)

end Grammar

namespace Value

theorem mem_listed {write : α → List Char} {as : List α} (h : c ∈ listed write as) :
    (c = ',' ∨ c = ' ') ∨ ∃ a ∈ as, c ∈ write a := by
  cases as with
  | nil => exact absurd h List.not_mem_nil
  | cons a as =>
    rcases List.mem_append.mp h with h | h
    · exact .inr ⟨a, List.mem_cons_self, h⟩
    · obtain ⟨b, hb, h⟩ := List.mem_flatMap.mp h
      rcases List.mem_cons.mp h with rfl | h
      · exact .inl (.inl rfl)
      rcases List.mem_cons.mp h with rfl | h
      · exact .inl (.inr rfl)
      · exact .inr ⟨b, List.mem_cons_of_mem a hb, h⟩

theorem feed_not_mem_between {write : α → List Char} {as : List α} {opening closing : Char}
    (ho : opening ≠ '\n') (hc : closing ≠ '\n') (h : ∀ a ∈ as, '\n' ∉ write a) :
    '\n' ∉ opening :: (listed write as ++ [closing]) := by
  intro hmem
  rcases List.mem_cons.mp hmem with hmem | hmem
  · exact ho hmem.symm
  rcases List.mem_append.mp hmem with hmem | hmem
  · rcases mem_listed hmem with hseparator | ⟨a, ha, hmem⟩
    · exact absurd hseparator (by decide)
    · exact h a ha hmem
  · exact hc (List.mem_singleton.mp hmem).symm

theorem feed_not_mem_name {key : String} (h : IsName key) : '\n' ∉ key.toList :=
  Grammar.lacks_name (by decide) (by decide) _ key (Grammar.name_iff.mpr ⟨rfl, h⟩)

theorem feed_not_mem_text {v : Value} (h : v.Expressible) : '\n' ∉ v.text := by
  induction h with
  | @object fields _ hn _ ih =>
    rw [text_object]
    apply feed_not_mem_between (by decide) (by decide)
    intro p hp hmem
    rcases List.mem_append.mp hmem with hmem | hmem
    · exact feed_not_mem_name (hn p hp) hmem
    rcases List.mem_cons.mp hmem with hmem | hmem
    · exact absurd hmem (by decide)
    · exact ih p hp hmem
  | @array items _ ih =>
    rw [text_array]
    exact feed_not_mem_between (by decide) (by decide) ih
  | string text =>
    rw [Value.text]
    exact Grammar.lacks_string _ text (Grammar.string_quote text)
  | @number x hx =>
    rw [Value.text]
    exact Grammar.lacks_number _ x (Binary64.number_text hx)
  | boolean b => exact Grammar.lacks_boolean _ b (Grammar.boolean_text b)

theorem text_inj {v v' : Value} (h : v.Expressible) (h' : v'.Expressible) (he : v.text = v'.text) :
    v = v' := by
  have hv := Grammar.value_text h (Nat.le_max_left v.nesting v'.nesting)
  have hv' := Grammar.value_text h' (Nat.le_max_right v.nesting v'.nesting)
  rw [he] at hv
  exact (Grammar.settled_value _).unique _ _ _ hv hv'

end Value

namespace Definition

variable {d d' : Definition} {n : Nat}

/-- What holds of a definition that was read. -/
structure Written (d : Definition) : Prop where
  name : IsName d.name
  configuration : (Value.object d.configuration).Expressible
  annotated : d.annotations ≠ []
  keys : ∀ e ∈ d.annotations, IsName e.1
  body : '\n' ∉ d.body.toList

def annotationLine (e : String × String) : List Char :=
  "  @".toList ++ (e.1.toList ++ ' ' :: ("= ".toList ++ Quoted.quote e.2.toList))

def summaryLines (d : Definition) : List (List Char) :=
  ("Function: ".toList ++ d.name.toList) ::
    ("Configuration: ".toList ++ (Value.object d.configuration).text) ::
      "Annotations:".toList ::
        (d.annotations.map annotationLine ++ ["Definition: ".toList ++ d.body.toList])

theorem terminated_annotationLines (tags : Entries String) :
    tags.flatMap (fun e =>
      "  @".toList ++ e.1.toList ++ " = ".toList ++ Quoted.quote e.2.toList ++ ['\n']) =
        terminated (tags.map annotationLine) := by
  have hequals : " = ".toList = ' ' :: "= ".toList := by decide
  rw [terminated, List.flatMap_map]
  congr 1
  funext e
  simp only [annotationLine, hequals, List.append_assoc, List.cons_append]

theorem summaryText_eq (h : d.annotations ≠ []) : d.summaryText = terminated d.summaryLines := by
  have hheading : "Annotations:\n".toList = "Annotations:".toList ++ ['\n'] := by decide
  have hempty : d.annotations.isEmpty = false := List.isEmpty_eq_false_iff.mpr h
  unfold summaryText summaryLines
  rw [terminated_annotationLines, hempty, if_neg Bool.false_ne_true, hheading]
  simp only [terminated_cons, terminated_append, List.append_assoc, List.cons_append,
    List.nil_append]
  rfl

theorem length_summaryLines (d : Definition) :
    d.summaryLines.length = 4 + d.annotations.length := by
  simp only [summaryLines, List.length_cons, List.length_append, List.length_map, List.length_nil]
  omega

theorem feed_not_mem_annotationLine {e : String × String} (h : IsName e.1) :
    '\n' ∉ annotationLine e := by
  have hquote : '\n' ∉ Quoted.quote e.2.toList :=
    Grammar.lacks_string _ e.2 (Grammar.string_quote e.2)
  rw [annotationLine, List.mem_append, List.mem_append, List.mem_cons, List.mem_append]
  rintro (hc | hc | hc | hc | hc)
  · exact absurd hc (by decide)
  · exact Value.feed_not_mem_name h hc
  · exact absurd hc (by decide)
  · exact absurd hc (by decide)
  · exact hquote hc

theorem Written.feed_not_mem (h : d.Written) : ∀ l ∈ d.summaryLines, '\n' ∉ l := by
  have hlabel : ∀ {label t : List Char}, '\n' ∉ label → '\n' ∉ t → '\n' ∉ label ++ t :=
    fun hl ht hmem => (List.mem_append.mp hmem).elim hl ht
  unfold summaryLines
  refine List.forall_mem_cons.mpr ⟨hlabel (by decide) (Value.feed_not_mem_name h.name), ?_⟩
  refine List.forall_mem_cons.mpr ⟨hlabel (by decide) (Value.feed_not_mem_text h.configuration), ?_⟩
  refine List.forall_mem_cons.mpr ⟨by decide, ?_⟩
  intro l hl
  rcases List.mem_append.mp hl with hl | hl
  · obtain ⟨e, he, rfl⟩ := List.mem_map.mp hl
    exact feed_not_mem_annotationLine (h.keys e he)
  · obtain rfl := List.mem_singleton.mp hl
    exact hlabel (by decide) h.body

theorem annotationLine_inj {e e' : String × String} (h : IsName e.1) (h' : IsName e'.1)
    (he : annotationLine e = annotationLine e') : e = e' := by
  have hblank : ∀ {key : String}, IsName key → ' ' ∉ key.toList := fun {key} hkey =>
    Grammar.lacks_name (by decide) (by decide) _ key (Grammar.name_iff.mpr ⟨rfl, hkey⟩)
  obtain ⟨hkey, hrest⟩ := split_at_first (hblank h) (hblank h') (List.append_cancel_left he)
  have hquote : (Value.string e.2).text = (Value.string e'.2).text := by
    rw [Value.text, Value.text]
    exact List.append_cancel_left hrest
  have htext := Value.string.inj (Value.text_inj (.string e.2) (.string e'.2) hquote)
  exact Prod.ext (String.toList_inj.mp hkey) htext

theorem annotationLines_inj {tags tags' : Entries String} (h : ∀ e ∈ tags, IsName e.1)
    (h' : ∀ e ∈ tags', IsName e.1) (he : tags.map annotationLine = tags'.map annotationLine) :
    tags = tags' := by
  induction tags generalizing tags' with
  | nil => exact (List.map_eq_nil_iff.mp he.symm).symm
  | cons e tags ih =>
    cases tags' with
    | nil => exact absurd he (List.cons_ne_nil _ _)
    | cons e' tags' =>
      obtain ⟨hfirst, hrest⟩ := List.cons.inj he
      obtain ⟨hkey, hkeys⟩ := List.forall_mem_cons.mp h
      obtain ⟨hkey', hkeys'⟩ := List.forall_mem_cons.mp h'
      rw [annotationLine_inj hkey hkey' hfirst, ih hkeys hkeys' hrest]

theorem Written.ext_of_summaryLines (h : d.Written) (h' : d'.Written)
    (he : d.summaryLines = d'.summaryLines) : d.name = d'.name ∧
      d.configuration = d'.configuration ∧ d.annotations = d'.annotations ∧ d.body = d'.body := by
  unfold summaryLines at he
  obtain ⟨hname, he⟩ := List.cons.inj he
  obtain ⟨hconfiguration, he⟩ := List.cons.inj he
  obtain ⟨hannotations, hbody⟩ := List.append_inj' (List.cons.inj he).2 rfl
  refine ⟨String.toList_inj.mp (List.append_cancel_left hname), ?_, ?_, ?_⟩
  · exact Value.object.inj (Value.text_inj h.configuration h'.configuration
      (List.append_cancel_left hconfiguration))
  · exact annotationLines_inj h.keys h'.keys hannotations
  · exact String.toList_inj.mp (List.append_cancel_left (List.cons.inj hbody).1)

end Definition

namespace Script

variable {options : Options} {text : String} {d : Definition} {n : Nat}

theorem annotations_of_word {tags : Entries String} (h : Grammar.annotations w tags) :
    tags ≠ [] ∧ ∀ e ∈ tags, IsName e.1 := by
  have hkey : ∀ {u : List Char} {e : String × String}, Grammar.metadata u e → IsName e.1 := by
    intro u e hu
    obtain ⟨_, -, h₁⟩ := symbol_bind_iff.mp hu
    obtain ⟨_, _, key, -, hkey, h₂⟩ := bind_iff.mp h₁
    obtain ⟨_, _, _, -, -, h₃⟩ := bind_iff.mp h₂
    obtain ⟨_, -, h₄⟩ := symbol_bind_iff.mp h₃
    obtain ⟨_, _, _, -, -, h₅⟩ := bind_iff.mp h₄
    obtain ⟨_, -, rfl⟩ := bind_pure_iff.mp h₅
    exact (Grammar.name_iff.mp hkey).2
  obtain ⟨_, _, first, -, hfirst, h₁⟩ := bind_iff.mp h
  obtain ⟨_, _, rest, -, hrest, h₂⟩ := bind_iff.mp h₁
  obtain ⟨_, _, _, -, -, h₃⟩ := bind_iff.mp h₂
  obtain ⟨_, -, -, hmerged⟩ := symbol_bind_iff.mp h₃
  obtain rfl := Grammar.merges_iff.mp hmerged
  constructor
  · intro hnil
    have hkeys := hmerged.keys
    rw [hnil, List.map_cons, List.eraseDups_cons] at hkeys
    exact absurd hkeys.symm (List.cons_ne_nil _ _)
  · intro e he
    rcases List.mem_cons.mp (Entries.mem_of_mem_ofList he) with rfl | he
    · exact hkey hfirst
    · obtain ⟨_, _, _, _, -, -, hmore⟩ := Grammar.exists_word_of_star hrest e he
      exact hkey hmore

theorem written_of_script {w : List Char} (h : Grammar.script n w d) : d.Written := by
  obtain ⟨_, _, _, raw, _, hname, hf, -, hbody, htags⟩ := parts_of_script h
  obtain ⟨hne, hkeys⟩ := annotations_of_word htags
  have hfeed : '\n' ∉ (String.ofList (Body.tidy raw)).toList := by
    rw [String.toList_ofList]
    exact Fences.not_mem_tidy raw
  exact ⟨(Grammar.name_iff.mp hname).2, (Grammar.configuration_expressible hf).1, hne, hkeys,
    hbody ▸ hfeed⟩

theorem written_of_parse (h : parse options text = .ok d) : d.Written := by
  have hstart := start_of_ok h
  rw [parse_ok_iff_read hstart, read_ok_iff] at h
  exact written_of_script h

theorem summary_lossless (options : Options) (text : String) (d : Definition)
    (h : parse options text = .ok d) :
    (∃ lines : List (List Char), lines.length = 4 + d.annotations.length ∧
      (∀ l ∈ lines, '\n' ∉ l) ∧ d.summary.toList = lines.flatMap (· ++ ['\n'])) ∧
    ∀ (options' : Options) (text' : String) (d' : Definition), parse options' text' = .ok d' →
      d.summary = d'.summary → d.name = d'.name ∧ d.configuration = d'.configuration ∧
        d.annotations = d'.annotations ∧ d.body = d'.body := by
  have hlines : ∀ {d : Definition}, d.Written → d.summary.toList = terminated d.summaryLines := by
    intro d hd
    rw [Definition.summary, String.toList_ofList]
    exact Definition.summaryText_eq hd.annotated
  have hd := written_of_parse h
  refine ⟨⟨d.summaryLines, d.length_summaryLines, hd.feed_not_mem, hlines hd⟩, ?_⟩
  intro options' text' d' h' he
  have hd' := written_of_parse h'
  have hsame : terminated d.summaryLines = terminated d'.summaryLines := by
    rw [← hlines hd, ← hlines hd', he]
  exact hd.ext_of_summaryLines hd' (terminated_inj hd.feed_not_mem hd'.feed_not_mem hsame)

theorem summary_lossless_of_feed :
    let d (value : String) : Definition := ⟨"f", [("a", .string value)], "", [("k", "v")]⟩
    parse ⟨none, 1⟩ (around "f" (.object (d "x\n").configuration)) = .ok (d "x\n") ∧
      parse ⟨some startRule, 9⟩ (around "f" (.object (d "x").configuration)) = .ok (d "x") ∧
      (∃ lines : List (List Char), lines.length = 5 ∧ (∀ l ∈ lines, '\n' ∉ l) ∧
        (d "x\n").summary.toList = lines.flatMap (· ++ ['\n'])) ∧
      (d "x\n").summary ≠ (d "x").summary := by
  intro d
  have hname : IsName "f" := ⟨'f', [], by decide, by decide, by simp⟩
  have hkey : IsName "a" := ⟨'a', [], by decide, by decide, by simp⟩
  have hparse : ∀ (value : String) (options : Options), 1 ≤ options.maxDepth →
      options.startRule = none ∨ options.startRule = some startRule →
        parse options (around "f" (.object (d value).configuration)) = .ok (d value) := by
    intro value options hle hstart
    have hv : (Value.object (d value).configuration).Expressible :=
      .object (List.pairwise_singleton _ _) (List.forall_mem_singleton.mpr hkey)
        (List.forall_mem_singleton.mpr (.string value))
    have hn : (Value.object (d value).configuration).nesting = 1 := by
      simp [d, Value.nesting, Value.fieldsNesting]
    rw [parse_ok_iff_read hstart, read_ok_iff]
    exact script_around hname hv (hn ▸ hle)
  have h := hparse "x\n" ⟨none, 1⟩ (Nat.le_refl 1) (.inl rfl)
  have h' := hparse "x" ⟨some startRule, 9⟩ (by decide) (.inr rfl)
  obtain ⟨hlines, hlossless⟩ := summary_lossless _ _ (d "x\n") h
  refine ⟨h, h', hlines, fun he => ?_⟩
  obtain ⟨-, hconfiguration, -⟩ := hlossless _ _ (d "x") h' he
  simp [d] at hconfiguration

end Script

end FuncScript
