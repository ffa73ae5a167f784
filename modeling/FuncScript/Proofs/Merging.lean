import FuncScript.Proofs.Grammar

namespace FuncScript

variable {α : Type}

namespace Entries

theorem ofList_concat (pairs : List (String × α)) (p : String × α) :
    ofList (pairs ++ [p]) = insert p.1 p.2 (ofList pairs) := by
  simp [ofList, List.foldl_append]

theorem get?_insert_of_ne {key other : String} (h : key ≠ other) (value : α) (entries : Entries α) :
    (insert key value entries).get? other = entries.get? other := by
  have hne : (other == key) = false := by simpa using h.symm
  induction entries with
  | nil => simp [insert, get?, List.lookup_cons, hne]
  | cons e rest ih =>
    obtain ⟨k, v⟩ := e
    by_cases hk : k = key
    · subst hk
      simp [insert, get?, List.lookup_cons, hne]
    · simp only [insert, hk, if_false, get?, List.lookup_cons]
      cases other == k with
      | true => rfl
      | false => exact ih

theorem ofList_of_nodup {pairs : List (String × α)} (h : (keys pairs).Nodup) :
    ofList pairs = pairs := by
  suffices hr : ∀ reversed : List (String × α), (keys reversed.reverse).Nodup →
      ofList reversed.reverse = reversed.reverse by
    simpa using hr pairs.reverse (by simpa using h)
  intro reversed
  induction reversed with
  | nil => exact fun _ => rfl
  | cons p reversed ih =>
    intro hn
    rw [List.reverse_cons, keys, List.map_append, List.nodup_append] at hn
    obtain ⟨hr, _, hne⟩ := hn
    rw [List.reverse_cons, ofList_concat, ih hr, insert_of_not_mem]
    intro hp
    exact hne p.1 hp p.1 (List.mem_singleton_self _) rfl

theorem mem_insert {key : String} {value : α} {entries : Entries α} {p : String × α}
    (h : p ∈ insert key value entries) : p = (key, value) ∨ p ∈ entries := by
  induction entries with
  | nil => exact .inl (List.mem_singleton.mp h)
  | cons e rest ih =>
    unfold insert at h
    split at h
    · rcases List.mem_cons.mp h with h | h
      · exact .inl h
      · exact .inr (List.mem_cons_of_mem e h)
    · rcases List.mem_cons.mp h with h | h
      · exact .inr (h ▸ List.mem_cons_self)
      · rcases ih h with h | h
        · exact .inl h
        · exact .inr (List.mem_cons_of_mem e h)

theorem mem_of_mem_ofList {pairs : List (String × α)} {p : String × α} (h : p ∈ ofList pairs) :
    p ∈ pairs := by
  suffices hr : ∀ reversed : List (String × α), p ∈ ofList reversed.reverse → p ∈ reversed by
    simpa using hr pairs.reverse (by simpa using h)
  intro reversed
  induction reversed with
  | nil => exact fun hp => by simp [ofList] at hp
  | cons q reversed ih =>
    intro hp
    rw [List.reverse_cons, ofList_concat] at hp
    rcases mem_insert hp with rfl | hp
    · exact List.mem_cons_self
    · exact List.mem_cons_of_mem q (ih hp)

theorem ext_of_nodup : ∀ {entries others : Entries α}, entries.keys.Nodup →
    entries.keys = others.keys → (∀ key, entries.get? key = others.get? key) → entries = others
  | [], [], _, _, _ => rfl
  | [], _ :: _, _, h, _ => by simp [keys] at h
  | _ :: _, [], _, h, _ => by simp [keys] at h
  | (k, v) :: entries, (k', v') :: others, hn, hk, hv => by
    simp only [keys, List.map_cons, List.cons.injEq, List.nodup_cons] at hn hk
    obtain ⟨rfl, hk⟩ := hk
    obtain rfl : v = v' := by simpa [get?] using hv k
    congr 1
    apply ext_of_nodup hn.2 hk
    intro key
    by_cases he : key = k
    · subst he
      have absent : ∀ es : Entries α, key ∉ es.map Prod.fst → es.get? key = none := by
        intro es hes
        apply List.lookup_eq_none_iff.mpr
        intro p hp
        simp only [bne_iff_ne, ne_eq]
        rintro rfl
        exact hes (List.mem_map_of_mem hp)
      rw [absent entries hn.1, absent others (hk ▸ hn.1)]
    · have hkey := hv key
      have hf : (key == k) = false := by simpa using he
      simpa only [get?, List.lookup_cons, hf] using hkey

end Entries

namespace Grammar

theorem merges_ofList (pairs : List (String × α)) : Merges pairs (Entries.ofList pairs) := by
  suffices h : ∀ reversed : List (String × α),
      Merges reversed.reverse (Entries.ofList reversed.reverse) by
    simpa using h pairs.reverse
  intro reversed
  induction reversed with
  | nil => exact ⟨rfl, fun _ => rfl⟩
  | cons p reversed ih =>
    obtain ⟨key, value⟩ := p
    rw [List.reverse_cons, Entries.ofList_concat]
    constructor
    · rw [Entries.keys_insert, ih.keys, List.map_append, List.eraseDups_append]
      generalize reversed.reverse.map Prod.fst = keys
      by_cases h : key ∈ keys
      · rw [if_pos (List.mem_eraseDups.mpr h)]
        simp [List.removeAll, h]
      · rw [if_neg fun hm => h (List.mem_eraseDups.mp hm)]
        simp [List.removeAll, h, List.eraseDups_cons]
    · intro other
      rw [List.reverse_append, List.reverse_singleton, List.singleton_append, List.lookup_cons]
      by_cases h : other = key
      · subst h
        simp [Entries.get?_insert_self]
      · have hf : (other == key) = false := by simpa using h
        rw [hf, Entries.get?_insert_of_ne (fun he => h he.symm), ih.last other]

theorem merges_iff {pairs : List (String × α)} {entries : Entries α} :
    Merges pairs entries ↔ entries = Entries.ofList pairs := by
  have hof := merges_ofList pairs
  constructor
  · intro h
    symm
    apply Entries.ext_of_nodup (Entries.nodup_ofList pairs)
    · rw [hof.keys, h.keys]
    · intro key
      rw [hof.last, h.last]
  · rintro rfl
    exact hof

theorem merged_eq (pairs : List (String × α)) : merged pairs = pure (Entries.ofList pairs) := by
  funext w entries
  exact propext (and_congr_right fun _ => merges_iff)

end Grammar

end FuncScript
