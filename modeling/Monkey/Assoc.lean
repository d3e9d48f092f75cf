/-!
# Ordered associations

Lists of keys and values in which every key stands once, in the order in which the keys first came. To
insert a key that is there already replaces its value and leaves it in its place. A look-up is
`List.lookup`; the lemmas say what an insertion does to look-ups, to the entries and to the order of the
keys.
-/

namespace Monkey.Assoc

variable {κ ν : Type} [BEq κ]

/-- Give a key a value: in its place if the key is there, and else at the end. -/
def insert (key : κ) (value : ν) : List (κ × ν) → List (κ × ν)
  | [] => [(key, value)]
  | (k, v) :: rest => if k == key then (k, value) :: rest else (k, v) :: insert key value rest

/-- Insert several keys and values, the first one first. -/
def insertAll (pairs : List (κ × ν)) (entries : List (κ × ν)) : List (κ × ν) :=
  pairs.foldl (fun done pair => insert pair.1 pair.2 done) entries

def keys (entries : List (κ × ν)) : List κ :=
  entries.map Prod.fst

@[simp] theorem lookup_insert_self [LawfulBEq κ] (key : κ) (value : ν) (entries : List (κ × ν)) :
    (insert key value entries).lookup key = some value := by
  induction entries with
  | nil => simp [insert]
  | cons entry rest ih =>
    obtain ⟨k, v⟩ := entry
    by_cases h : k == key
    · have : key = k := (eq_of_beq h).symm
      simp [insert, this]
    · have hk : (key == k) = false := by
        simpa using fun hkey : key = k => h (by simp [hkey])
      simp [insert, h, List.lookup_cons, hk, ih]

theorem lookup_insert_of_ne [LawfulBEq κ] {key other : κ} (h : other ≠ key) (value : ν)
    (entries : List (κ × ν)) :
    (insert key value entries).lookup other = entries.lookup other := by
  induction entries with
  | nil =>
    have : (other == key) = false := by simpa using h
    simp [insert, List.lookup_cons, this]
  | cons entry rest ih =>
    obtain ⟨k, v⟩ := entry
    by_cases hk : k == key
    · have hkey : k = key := eq_of_beq hk
      have hother : (other == k) = false := by simpa [hkey] using h
      have hother' : (other == key) = false := by simpa using h
      simp [insert, hkey, List.lookup_cons, hother']
    · simp only [insert, hk, Bool.false_eq_true, if_false, List.lookup_cons]
      cases other == k <;> simp [ih]

/-- A key that is there keeps its place, and a new one goes to the end. -/
theorem keys_insert [LawfulBEq κ] [DecidableEq κ] (key : κ) (value : ν) (entries : List (κ × ν)) :
    keys (insert key value entries)
      = if key ∈ keys entries then keys entries else keys entries ++ [key] := by
  induction entries with
  | nil => simp [insert, keys]
  | cons entry rest ih =>
    obtain ⟨k, v⟩ := entry
    by_cases hk : k = key
    · simp [insert, keys, hk]
    · have hb : (k == key) = false := by simpa using hk
      have hk' : key ≠ k := fun h => hk h.symm
      simp only [insert, hb, Bool.false_eq_true, if_false]
      simp only [keys, List.map_cons, List.mem_cons, hk', false_or] at ih ⊢
      rw [ih]
      split <;> simp_all

theorem insert_of_not_mem [LawfulBEq κ] {key : κ} {value : ν} {entries : List (κ × ν)}
    (h : key ∉ keys entries) : insert key value entries = entries ++ [(key, value)] := by
  induction entries with
  | nil => rfl
  | cons entry rest ih =>
    obtain ⟨k, v⟩ := entry
    simp only [keys, List.map_cons, List.mem_cons, not_or] at h
    have hk : (k == key) = false := by simpa using Ne.symm h.1
    rw [insert, hk, if_neg Bool.false_ne_true, ih h.2, List.cons_append]

theorem eq_or_mem_insert [LawfulBEq κ] {key : κ} {value : ν} {entry : κ × ν}
    {entries : List (κ × ν)} (h : entry ∈ insert key value entries) :
    entry = (key, value) ∨ entry ∈ entries := by
  induction entries with
  | nil => exact .inl (List.mem_singleton.mp h)
  | cons first rest ih =>
    rcases first with ⟨k, v⟩
    rw [insert] at h
    by_cases hk : (k == key) = true
    · rw [if_pos hk, eq_of_beq hk] at h
      exact (List.mem_cons.mp h).imp_right (List.mem_cons_of_mem _)
    · rw [if_neg hk] at h
      rcases List.mem_cons.mp h with rfl | h
      · exact .inr List.mem_cons_self
      · exact (ih h).imp_right (List.mem_cons_of_mem _)

theorem nodup_insert [LawfulBEq κ] [DecidableEq κ] {entries : List (κ × ν)}
    (h : (keys entries).Nodup) (key : κ) (value : ν) :
    (keys (insert key value entries)).Nodup := by
  rw [keys_insert]
  by_cases hkey : key ∈ keys entries
  · rwa [if_pos hkey]
  · rw [if_neg hkey]
    apply List.nodup_append.mpr
    refine ⟨h, by simp, fun other hother last hlast heq => hkey ?_⟩
    rwa [← List.mem_singleton.mp hlast, ← heq]

end Monkey.Assoc
