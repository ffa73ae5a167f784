/-!
Entries under keys, in the order in which the keys first came. Giving a key again keeps its place
and changes what stands there.
-/

namespace FuncScript

abbrev Entries (α : Type) := List (String × α)

namespace Entries

variable {α : Type}

def insert (key : String) (value : α) : Entries α → Entries α
  | [] => [(key, value)]
  | e :: rest => if e.1 = key then (key, value) :: rest else e :: insert key value rest

def ofList (pairs : List (String × α)) : Entries α :=
  pairs.foldl (fun entries p => insert p.1 p.2 entries) []

def keys (entries : Entries α) : List String := entries.map Prod.fst

def get? (entries : Entries α) (key : String) : Option α := entries.lookup key

theorem keys_insert (key : String) (value : α) (entries : Entries α) :
    (insert key value entries).keys =
      if key ∈ entries.keys then entries.keys else entries.keys ++ [key] := by
  induction entries with
  | nil => simp [insert, keys]
  | cons e rest ih =>
    by_cases h : e.1 = key
    · simp [insert, keys, h]
    · have h' : key ≠ e.1 := fun hk => h hk.symm
      simp only [keys] at ih
      simp only [insert, h, if_false, keys, List.map_cons, List.mem_cons, h', false_or, ih]
      split <;> simp_all

theorem nodup_insert (key : String) (value : α) {entries : Entries α}
    (h : entries.keys.Nodup) : (insert key value entries).keys.Nodup := by
  rw [keys_insert]
  split
  · exact h
  · next hk =>
    rw [List.nodup_append]
    refine ⟨h, by simp, ?_⟩
    intro a ha b hb hab
    simp only [List.mem_singleton] at hb
    exact hk (hb ▸ hab ▸ ha)

theorem nodup_ofList (pairs : List (String × α)) : (ofList pairs).keys.Nodup := by
  suffices h : ∀ entries : Entries α, entries.keys.Nodup →
      (pairs.foldl (fun entries p => insert p.1 p.2 entries) entries).keys.Nodup from
    h [] (by simp [keys])
  induction pairs with
  | nil => exact fun _ h => h
  | cons p ps ih => exact fun entries h => ih _ (nodup_insert p.1 p.2 h)

theorem insert_of_not_mem (key : String) (value : α) {entries : Entries α}
    (h : key ∉ entries.keys) : insert key value entries = entries ++ [(key, value)] := by
  induction entries with
  | nil => rfl
  | cons e rest ih =>
    simp only [keys, List.map_cons, List.mem_cons, not_or] at h
    have hne : e.1 ≠ key := fun hk => h.1 hk.symm
    simp only [insert, hne, if_false, List.cons_append]
    rw [ih h.2]

theorem get?_insert_self (key : String) (value : α) (entries : Entries α) :
    (insert key value entries).get? key = some value := by
  induction entries with
  | nil => simp [insert, get?]
  | cons e rest ih =>
    obtain ⟨k, v⟩ := e
    by_cases h : k = key
    · simp [insert, get?, h]
    · have h' : (key == k) = false := by simpa using fun hk => h hk.symm
      simp only [insert, h, if_false, get?, List.lookup_cons, h']
      exact ih

end Entries

end FuncScript
