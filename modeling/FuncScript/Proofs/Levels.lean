import FuncScript.Proofs.Grammar

namespace FuncScript.Grammar

open Phrase

variable {α : Type} {n m : Nat} {w : List Char}

theorem enclosed_mono {item item' : Phrase α} {opening closing : Char}
    (h : ∀ w a, item w a → item' w a) {as : List α} (hw : enclosed opening closing item w as) :
    enclosed opening closing item' w as := by
  refine bind_mono (fun _ _ h => h) (fun _ _ _ => bind_mono (fun _ _ h => h) fun _ _ _ =>
    bind_mono ?_ fun _ _ _ h => h) hw
  rintro u bs (hu | hu)
  · exact .inl hu
  · refine .inr (bind_mono h (fun _ _ _ => bind_mono ?_ fun _ _ _ h => h) hu)
    exact fun v cs => star_mono fun _ _ => bind_mono (fun _ _ h => h) fun _ => h

theorem pair_mono {value value' : Phrase α} (h : ∀ w a, value w a → value' w a)
    {p : String × α} (hw : pair value w p) : pair value' w p := by
  refine bind_mono (fun _ _ h => h) (fun _ _ _ => bind_mono (fun _ _ h => h) fun _ _ _ =>
    bind_mono (fun _ _ h => h) fun _ _ _ => bind_mono (fun _ _ h => h) fun _ _ _ =>
      bind_mono h fun _ _ _ h => h) hw

theorem object_mono {value value' : Phrase α} (h : ∀ w a, value w a → value' w a)
    {fields : Entries α} (hw : object value w fields) : object value' w fields :=
  bind_mono (fun _ _ => enclosed_mono fun _ _ => pair_mono h) (fun _ _ _ h => h) hw

theorem value_succ : ∀ {n : Nat} {w : List Char} {v : Value}, value n w v → value (n + 1) w v
  | 0, _, _, h => .inr (.inr h)
  | n + 1, w, v, h => by
    rcases h with h | h | h
    · exact .inl (bind_mono (fun _ _ => object_mono fun _ _ => value_succ) (fun _ _ _ h => h) h)
    · exact .inr (.inl (bind_mono (fun _ _ => enclosed_mono fun _ _ => value_succ)
        (fun _ _ _ h => h) h))
    · exact .inr (.inr h)

theorem value_mono (h : n ≤ m) {v : Value} (hw : value n w v) : value m w v := by
  induction h with
  | refl => exact hw
  | step _ ih => exact value_succ ih

theorem configuration_mono (h : n ≤ m) {fields : Entries Value} (hw : configuration n w fields) :
    configuration m w fields := by
  cases n with
  | zero => exact hw.elim
  | succ n =>
    obtain ⟨m, rfl⟩ : ∃ k, m = k + 1 := ⟨m - 1, by omega⟩
    exact object_mono (fun _ _ => value_mono (by omega)) hw

theorem contents_mono {inner inner' : List Char → Prop} {closing raw : List Char}
    (h : ∀ u, inner u → inner' u) (hc : Contents inner closing raw) :
    Contents inner' closing raw := by
  induction hc with
  | nil => exact .nil
  | block hu _ ih => exact .block (h _ hu) ih
  | char hb he _ ih => exact .char hb he ih

theorem block_succ_mono : ∀ {n : Nat} {w raw : List Char}, block n w raw → block (n + 1) w raw
  | 0, _, _, h => h.elim
  | n + 1, w, raw, h => by
    obtain ⟨opening, closing, rfl, hb, he, hc⟩ := h
    refine ⟨opening, closing, rfl, hb, he, contents_mono ?_ hc⟩
    rintro u ⟨r, hu⟩
    exact ⟨r, block_succ_mono hu⟩

theorem block_mono (h : n ≤ m) {raw : List Char} (hw : block n w raw) : block m w raw := by
  induction h with
  | refl => exact hw
  | step _ ih => exact block_succ_mono ih

theorem script_mono (h : n ≤ m) {d : Definition} (hw : script n w d) : script m w d :=
  bind_mono (fun _ _ h => h) (fun _ _ _ => bind_mono (fun _ _ h => h) fun _ _ _ =>
    bind_mono (fun _ _ h => h) fun _ _ _ => bind_mono (fun _ _ h => h) fun _ _ _ =>
      bind_mono (fun _ _ h => h) fun _ _ _ => bind_mono (fun _ _ => configuration_mono h) fun _ _ _ =>
        bind_mono (fun _ _ h => h) fun _ _ _ => bind_mono (fun _ _ => block_mono h)
          fun _ _ _ h => h) hw

end FuncScript.Grammar
