import FuncScript.Proofs.Acceptance
import FuncScript.Proofs.Levels
import FuncScript.Proofs.Writing.Value

/-!
Configurations as text and back. A script around the text of a configuration is read as that
configuration if the levels suffice, and all configurations that are read can be written so.
-/

namespace FuncScript

open Phrase

namespace Grammar

variable {n : Nat} {name : String} {fields : Entries Value}

theorem blanks_space : blanks [' '] () := by
  intro c hc
  obtain rfl := List.mem_singleton.mp hc
  decide

theorem annotations_mark :
    annotations ('@' :: ("k".toList ++ '=' :: Quoted.quote "v".toList) ++ [';']) [("k", "v")] := by
  have hkey : IsName "k" := ⟨'k', [], by decide, by decide, by simp⟩
  refine bind_mk (a := ("k", "v")) ?_ (bind_mk (u := []) Star.nil (blanks_bind ?_))
  · refine symbol_bind_iff.mpr ⟨_, rfl, bind_mk (name_iff.mpr ⟨rfl, hkey⟩) (blanks_bind ?_)⟩
    refine symbol_bind_iff.mpr ⟨_, rfl, blanks_bind ?_⟩
    exact bind_pure_iff.mpr ⟨"v", string_quote "v", rfl⟩
  · exact symbol_bind_iff.mpr ⟨[], rfl, rfl, merges_iff.mpr rfl⟩

theorem block_space : block (n + 1) ("BEGIN".toList ++ ([' '] ++ "END".toList)) [' '] := by
  refine ⟨"BEGIN".toList, "END".toList, rfl, ?_, ?_, ?_⟩
  · exact Keyword.word_of_startsAt (by decide) (by decide)
  · exact Keyword.word_of_startsAt (by decide) (by decide)
  · exact .char (by decide) (by decide) .nil

end Grammar

namespace Script

variable {options : Options} {name : String} {fields : Entries Value} {n : Nat}

def around (name : String) (v : Value) : String :=
  "FUNC " ++ name ++ " " ++ v.display ++ " BEGIN END @k=\"v\";"

theorem toList_around (name : String) (v : Value) : (around name v).toList =
    "FUNC".toList ++ ([' '] ++ (name.toList ++ ([' '] ++ (v.text ++ ([' '] ++
      (("BEGIN".toList ++ ([' '] ++ "END".toList)) ++ ([' '] ++
        ('@' :: ("k".toList ++ '=' :: Quoted.quote "v".toList) ++ [';'])))))))) := by
  have hquote : Quoted.quote ['v'] = ['"', 'v', '"'] := by decide
  simp [around, Value.display, hquote]

theorem script_written {block raw : List Char} (hname : IsName name)
    (h : (Value.object fields).Expressible) (hn : (Value.object fields).nesting ≤ n)
    (hb : Grammar.block n block raw) :
    Grammar.script n ("FUNC".toList ++ ([' '] ++ (name.toList ++ ([' '] ++
      ((Value.object fields).text ++ ([' '] ++ (block ++ ([' '] ++
        ('@' :: ("k".toList ++ '=' :: Quoted.quote "v".toList) ++ [';'])))))))))
      ⟨name, fields, String.ofList (Body.tidy raw), [("k", "v")]⟩ := by
  obtain ⟨m, rfl⟩ := Nat.exists_eq_add_one.mpr (Grammar.pos_of_block hb)
  have hfunc : Grammar.word .func "FUNC".toList () :=
    Keyword.word_of_startsAt (by decide) (by decide)
  rw [Grammar.script_eq]
  refine Grammar.blanks_bind (bind_mk hfunc (bind_mk Grammar.blanks_space ?_))
  refine bind_mk (Grammar.name_iff.mpr ⟨rfl, hname⟩) (bind_mk Grammar.blanks_space ?_)
  refine bind_mk (Grammar.configuration_text h hn) (bind_mk Grammar.blanks_space ?_)
  refine bind_mk hb (bind_mk Grammar.blanks_space ?_)
  exact bind_pure_iff.mpr ⟨_, Grammar.annotations_mark, rfl⟩

theorem script_around (hname : IsName name) (h : (Value.object fields).Expressible)
    (hn : (Value.object fields).nesting ≤ n) :
    Grammar.script n (around name (.object fields)).toList ⟨name, fields, "", [("k", "v")]⟩ := by
  have hlevels : 0 < n := by
    rw [Value.nesting] at hn
    omega
  obtain ⟨m, rfl⟩ := Nat.exists_eq_add_one.mpr hlevels
  have hbody : String.ofList (Body.tidy [' ']) = "" := by decide
  rw [toList_around, ← hbody]
  exact script_written hname h hn Grammar.block_space

theorem parts_of_script {w : List Char} {d : Definition} (h : Grammar.script n w d) :
    ∃ key fields block raw tags, Grammar.name key d.name ∧
      Grammar.configuration n fields d.configuration ∧ Grammar.block n block raw ∧
        d.body = String.ofList (Body.tidy raw) ∧ Grammar.annotations tags d.annotations := by
  rw [Grammar.script_eq] at h
  obtain ⟨_, _, _, _, _, h₁⟩ := bind_iff.mp h
  obtain ⟨_, _, _, _, _, h₂⟩ := bind_iff.mp h₁
  obtain ⟨_, _, _, _, _, h₃⟩ := bind_iff.mp h₂
  obtain ⟨key, _, functionName, _, hkey, h₄⟩ := bind_iff.mp h₃
  obtain ⟨_, _, _, _, _, h₅⟩ := bind_iff.mp h₄
  obtain ⟨fields, _, configuration, _, hf, h₆⟩ := bind_iff.mp h₅
  obtain ⟨_, _, _, _, _, h₇⟩ := bind_iff.mp h₆
  obtain ⟨block, _, raw, _, hb, h₈⟩ := bind_iff.mp h₇
  obtain ⟨_, _, _, _, _, h₉⟩ := bind_iff.mp h₈
  obtain ⟨tags, htags, rfl⟩ := bind_pure_iff.mp h₉
  exact ⟨key, fields, block, raw, _, hkey, hf, hb, rfl, htags⟩

theorem configuration_of_script {w : List Char} {d : Definition} (h : Grammar.script n w d) :
    (Value.object d.configuration).Expressible ∧ (Value.object d.configuration).nesting ≤ n := by
  obtain ⟨_, _, _, _, _, -, hf, -⟩ := parts_of_script h
  exact Grammar.configuration_expressible hf

/-- A configuration is read back from its text by all options that allow its nesting and by no
other, and what is read of any script is a configuration that can be read back so. -/
theorem parse_around (options : Options)
    (h : options.startRule = none ∨ options.startRule = some startRule) :
    (∀ name fields, IsName name → (Value.object fields).Expressible →
      ((Value.object fields).nesting ≤ options.maxDepth →
        parse options (around name (.object fields)) = .ok ⟨name, fields, "", [("k", "v")]⟩) ∧
      (options.maxDepth < (Value.object fields).nesting →
        ∃ e, parse options (around name (.object fields)) = .error (.malformed e))) ∧
    ∀ text d, parse options text = .ok d →
      (Value.object d.configuration).Expressible ∧
      (Value.object d.configuration).nesting ≤ options.maxDepth ∧
      ∀ name, IsName name → parse options (around name (.object d.configuration)) =
        .ok ⟨name, d.configuration, "", [("k", "v")]⟩ := by
  have back : ∀ name fields, IsName name → (Value.object fields).Expressible →
      (Value.object fields).nesting ≤ options.maxDepth →
        parse options (around name (.object fields)) = .ok ⟨name, fields, "", [("k", "v")]⟩ := by
    intro name fields hname hv hn
    rw [parse_ok_iff_read h, read_ok_iff]
    exact script_around hname hv hn
  refine ⟨fun name fields hname hv => ⟨back name fields hname hv, fun hn => ?_⟩, ?_⟩
  · apply exists_malformed h
    intro d hd
    rw [parse_ok_iff_read h, read_ok_iff] at hd
    have hd' := Grammar.script_mono (Nat.le_of_lt hn) hd
    have heq := (Rule.settled_script _).unique _ _ _ hd' (script_around hname hv (Nat.le_refl _))
    have hle := (configuration_of_script hd).2
    rw [heq] at hle
    exact absurd hle (Nat.not_le.mpr hn)
  · intro text d hd
    rw [parse_ok_iff_read h, read_ok_iff] at hd
    obtain ⟨hv, hn⟩ := configuration_of_script hd
    exact ⟨hv, hn, fun name hname => back name d.configuration hname hv hn⟩

theorem parse_around_of_nested :
    let small : Entries Value := [("a", .array [.string "x\n"]), ("b", .boolean true)]
    ((⟨none, 2⟩ : Options).startRule = none ∨ (⟨none, 2⟩ : Options).startRule = some startRule) ∧
    IsName "f" ∧ (Value.object small).Expressible ∧ (Value.object small).nesting = 2 ∧
    parse ⟨none, 2⟩ (around "f" (.object small)) = .ok ⟨"f", small, "", [("k", "v")]⟩ ∧
    parse ⟨none, 2⟩ (around "g" (.object small)) = .ok ⟨"g", small, "", [("k", "v")]⟩ ∧
    (∃ e, parse ⟨none, 1⟩ (around "f" (.object small)) = .error (.malformed e)) := by
  intro small
  have hname : IsName "f" := ⟨'f', [], by decide, by decide, by simp⟩
  have hother : IsName "g" := ⟨'g', [], by decide, by decide, by simp⟩
  have hkeys : ∀ p ∈ small, IsName p.1 := by
    intro p hp
    simp only [small, List.mem_cons, List.not_mem_nil, or_false] at hp
    rcases hp with rfl | rfl
    · exact ⟨'a', [], by decide, by decide, by simp⟩
    · exact ⟨'b', [], by decide, by decide, by simp⟩
  have hvalues : ∀ p ∈ small, p.2.Expressible := by
    intro p hp
    simp only [small, List.mem_cons, List.not_mem_nil, or_false] at hp
    rcases hp with rfl | rfl
    · refine .array fun v hv => ?_
      obtain rfl := List.mem_singleton.mp hv
      exact .string _
    · exact .boolean true
  have hv : (Value.object small).Expressible := .object (by decide) hkeys hvalues
  have hn : (Value.object small).nesting = 2 := by
    simp [small, Value.nesting, Value.fieldsNesting, Value.itemsNesting]
  have hok := ((parse_around ⟨none, 2⟩ (.inl rfl)).1 "f" small hname hv).1 (Nat.le_of_eq hn)
  refine ⟨.inl rfl, hname, hv, hn, hok, ?_, ?_⟩
  · exact ((parse_around ⟨none, 2⟩ (.inl rfl)).2 _ _ hok).2.2 "g" hother
  · refine ((parse_around ⟨none, 1⟩ (.inl rfl)).1 "f" small hname hv).2 ?_
    rw [hn]
    exact Nat.lt_succ_self 1

end Script

end FuncScript
