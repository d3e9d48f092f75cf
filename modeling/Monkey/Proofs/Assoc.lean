import Mathlib.Data.List.Induction
import Mathlib.Data.List.Nodup
import Monkey.Assoc

/-!
# Pairs inserted one after the other

What is left of a list of pairs when they are inserted one after the other into an empty association: of each
key the pair that a search from the end finds (`mem_insertAll`, `lookup_insertAll`), in the place where the key
came first (`ordered_insertAll`).
-/

namespace Monkey.Assoc

variable {κ ν : Type} {key : κ} {value : ν} {pairs entries : List (κ × ν)}

theorem mem_keys_iff : key ∈ keys entries ↔ ∃ value, (key, value) ∈ entries := by
  constructor
  · intro h
    obtain ⟨⟨_, value⟩, hentry, rfl⟩ := List.mem_map.mp h
    exact ⟨value, hentry⟩
  · rintro ⟨value, hentry⟩
    exact List.mem_map.mpr ⟨(key, value), hentry, rfl⟩

variable [DecidableEq κ]

/-- The last pair with a key. -/
def lastWith (pairs : List (κ × ν)) (key : κ) : Option (κ × ν) :=
  pairs.findRev? fun pair => pair.1 == key

/-- How many pairs stand in front of the first one with a key. -/
def firstAt (pairs : List (κ × ν)) (key : κ) : Nat :=
  pairs.findIdx fun pair => pair.1 == key

theorem lastWith_concat (pairs : List (κ × ν)) (last : κ × ν) (key : κ) :
    lastWith (pairs ++ [last]) key = if last.1 = key then some last else lastWith pairs key := by
  simp only [lastWith, List.findRev?_eq_find?_reverse, List.reverse_append, List.reverse_singleton,
    List.singleton_append]
  by_cases h : last.1 = key
  · rw [if_pos h, List.find?_cons_of_pos (by simpa using h)]
  · rw [if_neg h, List.find?_cons_of_neg (by simpa using h)]

theorem mem_of_lastWith {pair : κ × ν} (h : lastWith pairs key = some pair) : pair ∈ pairs := by
  rw [lastWith, List.findRev?_eq_find?_reverse] at h
  exact List.mem_reverse.mp (List.mem_of_find?_eq_some h)

/-- The last pair with a key is the one behind which the key does not come again. -/
theorem lastWith_append {front back : List (κ × ν)} (h : key ∉ keys back) :
    lastWith (front ++ (key, value) :: back) key = some (key, value) := by
  have hback : back.reverse.find? (fun pair => pair.1 == key) = none := by
    apply List.find?_eq_none.mpr
    intro pair hpair hkey
    exact h (List.mem_map.mpr ⟨pair, List.mem_reverse.mp hpair, eq_of_beq hkey⟩)
  rw [lastWith, List.findRev?_eq_find?_reverse, List.reverse_append, List.reverse_cons, List.append_assoc,
    List.find?_append, hback, Option.none_or, List.singleton_append, List.find?_cons_of_pos (by simp)]

theorem firstAt_lt (h : key ∈ keys pairs) : firstAt pairs key < pairs.length := by
  obtain ⟨value, hpair⟩ := mem_keys_iff.mp h
  exact List.findIdx_lt_length.mpr ⟨_, hpair, beq_self_eq_true key⟩

theorem firstAt_append_of_mem (h : key ∈ keys pairs) (rest : List (κ × ν)) :
    firstAt (pairs ++ rest) key = firstAt pairs key := by
  rw [firstAt, List.findIdx_append]
  exact if_pos (firstAt_lt h)

theorem firstAt_append_of_not_mem (h : key ∉ keys pairs) (rest : List (κ × ν)) :
    firstAt (pairs ++ rest) key = firstAt rest key + pairs.length := by
  rw [firstAt, List.findIdx_append]
  refine if_neg fun hlt => ?_
  obtain ⟨pair, hpair, hkey⟩ := List.findIdx_lt_length.mp hlt
  exact h (List.mem_map.mpr ⟨pair, hpair, eq_of_beq hkey⟩)

/-! ### One insertion -/

/-- With an insertion the entry of the key goes, and the given one comes. -/
theorem mem_insert_iff (h : (keys entries).Nodup) {entry : κ × ν} :
    entry ∈ insert key value entries ↔ entry = (key, value) ∨ entry ∈ entries ∧ entry.1 ≠ key := by
  induction entries with
  | nil => simp [insert]
  | cons first rest ih =>
    obtain ⟨k, v⟩ := first
    obtain ⟨hfirst, hrest⟩ := List.nodup_cons.mp h
    by_cases hk : k = key
    · subst hk
      have hother : ∀ entry ∈ rest, entry.1 ≠ k := by
        intro entry hentry hkey
        exact hfirst (List.mem_map.mpr ⟨entry, hentry, hkey⟩)
      rw [insert, if_pos (beq_self_eq_true k), List.mem_cons, List.mem_cons]
      constructor
      · rintro (rfl | hentry)
        · exact .inl rfl
        · exact .inr ⟨.inr hentry, hother entry hentry⟩
      · rintro (rfl | ⟨rfl | hentry, hne⟩)
        · exact .inl rfl
        · exact absurd rfl hne
        · exact .inr hentry
    · rw [insert, if_neg (by simpa using hk), List.mem_cons, ih hrest, List.mem_cons]
      constructor
      · rintro (rfl | rfl | ⟨hentry, hne⟩)
        · exact .inr ⟨.inl rfl, hk⟩
        · exact .inl rfl
        · exact .inr ⟨.inr hentry, hne⟩
      · rintro (rfl | ⟨rfl | hentry, hne⟩)
        · exact .inr (.inl rfl)
        · exact .inl rfl
        · exact .inr (.inr ⟨hentry, hne⟩)

/-! ### All of them -/

theorem insertAll_concat (pairs : List (κ × ν)) (last : κ × ν) (entries : List (κ × ν)) :
    insertAll (pairs ++ [last]) entries = insert last.1 last.2 (insertAll pairs entries) := by
  rw [insertAll, List.foldl_append, List.foldl_cons, List.foldl_nil, insertAll]

theorem nodup_insertAll (pairs : List (κ × ν)) : (keys (insertAll pairs [])).Nodup := by
  induction pairs using List.reverseRecOn with
  | nil => exact List.nodup_nil
  | append_singleton pairs last ih =>
    rw [insertAll_concat]
    exact nodup_insert ih last.1 last.2

/-- Of each key the last pair is left, and nothing else. -/
theorem mem_insertAll {pair : κ × ν} :
    pair ∈ insertAll pairs [] ↔ lastWith pairs pair.1 = some pair := by
  induction pairs using List.reverseRecOn with
  | nil => simp [insertAll, lastWith]
  | append_singleton pairs last ih =>
    rw [insertAll_concat, mem_insert_iff (nodup_insertAll pairs), lastWith_concat, ih]
    by_cases h : last.1 = pair.1
    · rw [if_pos h, Option.some_inj]
      constructor
      · rintro (rfl | ⟨-, hne⟩)
        · rfl
        · exact absurd h.symm hne
      · rintro rfl
        exact .inl rfl
    · rw [if_neg h]
      constructor
      · rintro (rfl | ⟨hlast, -⟩)
        · exact absurd rfl h
        · exact hlast
      · intro hlast
        exact .inr ⟨hlast, Ne.symm h⟩

/-- A look-up finds the value of the last pair with the key. -/
theorem lookup_insertAll (pairs : List (κ × ν)) (key : κ) :
    (insertAll pairs []).lookup key = (lastWith pairs key).map Prod.snd := by
  induction pairs using List.reverseRecOn with
  | nil => rfl
  | append_singleton pairs last ih =>
    rw [insertAll_concat, lastWith_concat]
    by_cases h : last.1 = key
    · rw [if_pos h, ← h, lookup_insert_self]
      rfl
    · rw [if_neg h, lookup_insert_of_ne (Ne.symm h), ih]

theorem mem_keys_insertAll : key ∈ keys (insertAll pairs []) ↔ key ∈ keys pairs := by
  induction pairs using List.reverseRecOn with
  | nil => rfl
  | append_singleton pairs last ih =>
    have hconcat : key ∈ keys (pairs ++ [last]) ↔ key ∈ keys pairs ∨ key = last.1 := by simp [keys]
    rw [insertAll_concat, keys_insert, hconcat]
    split
    · next hlast =>
      rw [ih]
      constructor
      · exact .inl
      · rintro (hkey | rfl)
        · exact hkey
        · rwa [← ih]
    · rw [List.mem_append, List.mem_singleton, ih]

/-- The keys stand in the order in which they came first. -/
theorem ordered_insertAll (pairs : List (κ × ν)) :
    (keys (insertAll pairs [])).Pairwise fun key other => firstAt pairs key < firstAt pairs other := by
  induction pairs using List.reverseRecOn with
  | nil => exact .nil
  | append_singleton pairs last ih =>
    -- The keys so far stay in front of each other, since they came first before the new pair did.
    have hbefore : (keys (insertAll pairs [])).Pairwise fun key other =>
        firstAt (pairs ++ [last]) key < firstAt (pairs ++ [last]) other := by
      apply ih.imp_of_mem
      intro key other hkey hother hlt
      rwa [firstAt_append_of_mem (mem_keys_insertAll.mp hkey),
        firstAt_append_of_mem (mem_keys_insertAll.mp hother)]
    rw [insertAll_concat, keys_insert]
    split
    · exact hbefore
    · next hlast =>
      apply List.pairwise_append.mpr
      refine ⟨hbefore, List.pairwise_singleton _ _, ?_⟩
      intro key hkey other hother
      obtain rfl := List.mem_singleton.mp hother
      have hpairs := mem_keys_insertAll.mp hkey
      have hnew : last.1 ∉ keys pairs := fun h => hlast (mem_keys_insertAll.mpr h)
      rw [firstAt_append_of_mem hpairs, firstAt_append_of_not_mem hnew]
      have := firstAt_lt hpairs
      omega

end Monkey.Assoc
