import ProtoScribe.Value

/-!
# Dictionaries and depth

What `find?` finds after `put`, and how deep the parts of a value are.

Keys are compared by `sameKey`, which is wider than equality (a number and a truth value can be one
key). So the facts about keys other than the one that was put ask that the keys of the dictionary are
told apart from it.
-/

namespace ProtoScribe

theorem Binary64.equals_comm (x y : Binary64) : x.equals y = y.equals x := by
  unfold equals
  rw [Bool.and_comm (!x.isNaN), Bool.and_comm x.isZero, Bool.beq_comm (a := x.bits)]

theorem Binary64.equals_of_isZero {x y : Binary64} (h : y.isZero = true) : x.equals y = x.isZero := by
  have hnan : ∀ z : Binary64, z.isZero = true → z.isNaN = false := by
    intro z hz
    simp only [isZero, beq_iff_eq] at hz
    simp [isNaN, hz]
  cases hx : x.isZero with
  | true => simp [equals, hnan x hx, hnan y h, hx, h]
  | false =>
    have hbits : x.bits ≠ y.bits := by
      intro heq
      unfold isZero pattern at hx h
      rw [heq, h] at hx
      cases hx
    simp [equals, hbits, hx]

namespace Value

/-! ## Keys -/

theorem equals_comm (a b : Value) : a.equals b = b.equals a := by
  cases a <;> cases b <;> simp only [equals, Binary64.equals_comm, Bool.beq_comm]

@[simp]
theorem sameKey_self (a : Value) : a.sameKey a = true := by simp [sameKey]

theorem sameKey_comm (a b : Value) : a.sameKey b = b.sameKey a := by
  simp only [sameKey, equals_comm a b, eq_comm]

/-! ## Finding what was put -/

theorem find?_put_self (entries : List (Value × Value)) (key v : Value) :
    find? (put entries key v) key = some v := by
  induction entries with
  | nil => simp [put, find?]
  | cons entry rest ih =>
    obtain ⟨k, w⟩ := entry
    rw [put]
    split
    · next h => simp [find?, h]
    · next h => simp [find?, h, ih]

theorem find?_eq_none {entries : List (Value × Value)} {key : Value}
    (h : ∀ entry ∈ entries, entry.1.sameKey key = false) : find? entries key = Option.none := by
  induction entries with
  | nil => rfl
  | cons first rest ih =>
    rw [find?, h first (by simp)]
    exact ih fun e he => h e (by simp [he])

theorem find?_append (before after : List (Value × Value)) (key : Value) :
    find? (before ++ after) key = (find? before key).or (find? after key) := by
  induction before with
  | nil => rfl
  | cons first rest ih =>
    rw [List.cons_append, find?, find?, ih]
    split <;> rfl

/-- Putting a value leaves the entries under other keys alone. -/
theorem find?_put_of_apart {entries : List (Value × Value)} {key other : Value} (v : Value)
    (hkey : key.sameKey other = false)
    (hentries : ∀ entry ∈ entries, entry.1.sameKey key = true → entry.1.sameKey other = false) :
    find? (put entries key v) other = find? entries other := by
  induction entries with
  | nil => simp [put, find?, hkey]
  | cons entry rest ih =>
    obtain ⟨k, w⟩ := entry
    rw [put]
    split
    · next h =>
      have hk : k.sameKey other = false := hentries (k, w) (by simp) h
      simp [find?, hk]
    · next h =>
      rw [find?, find?, ih fun e he => hentries e (by simp [he])]

/-- Only the last value that is put under a key stays. -/
theorem put_put (entries : List (Value × Value)) (key v w : Value) :
    put (put entries key v) key w = put entries key w := by
  induction entries with
  | nil => simp [put]
  | cons entry rest ih =>
    obtain ⟨k, u⟩ := entry
    by_cases h : k.sameKey key = true
    · simp [put, h]
    · simp [put, h, ih]

theorem put_of_find? {entries : List (Value × Value)} {key v : Value} (h : find? entries key = some v) :
    put entries key v = entries := by
  induction entries with
  | nil => cases h
  | cons entry rest ih =>
    obtain ⟨k, w⟩ := entry
    rw [find?] at h
    rw [put]
    split at h
    · next hk =>
      cases h
      rw [if_pos hk]
    · next hk => rw [if_neg hk, ih h]

/-- Every key after putting a value was there before, or is the one it was put under. -/
theorem key_of_mem_put {entries : List (Value × Value)} {key v : Value} {entry : Value × Value}
    (h : entry ∈ put entries key v) : entry.1 = key ∨ ∃ e ∈ entries, e.1 = entry.1 := by
  induction entries with
  | nil =>
    rw [put, List.mem_singleton] at h
    exact .inl (by rw [h])
  | cons first rest ih =>
    obtain ⟨k, w⟩ := first
    rw [put] at h
    split at h
    · rcases List.mem_cons.1 h with rfl | hrest
      · exact .inr ⟨(k, w), by simp, rfl⟩
      · exact .inr ⟨entry, by simp [hrest], rfl⟩
    · rcases List.mem_cons.1 h with rfl | hrest
      · exact .inr ⟨(k, w), by simp, rfl⟩
      · rcases ih hrest with hkey | ⟨e, he, hke⟩
        · exact .inl hkey
        · exact .inr ⟨e, by simp [he], hke⟩

/-! ## Dictionaries with keys told apart -/

def KeysApart (entries : List (Value × Value)) : Prop :=
  entries.Pairwise fun a b => a.1.sameKey b.1 = false

theorem put_of_absent {entries : List (Value × Value)} {key : Value} (v : Value)
    (h : ∀ entry ∈ entries, entry.1.sameKey key = false) :
    put entries key v = entries ++ [(key, v)] := by
  induction entries with
  | nil => rfl
  | cons first rest ih =>
    obtain ⟨k, w⟩ := first
    have hk : k.sameKey key = false := h (k, w) (by simp)
    rw [put, hk, ih fun e he => h e (by simp [he])]
    rfl

section

variable {before after : List (Value × Value)} {key old : Value}
  (h : ∀ entry ∈ before, entry.1.sameKey key = false)

include h

/-- The first entry under a key is the one that is found and replaced. -/
theorem find?_middle : find? (before ++ (key, old) :: after) key = some old := by
  induction before with
  | nil => simp [find?]
  | cons first rest ih =>
    have hfirst := h first (by simp)
    rw [List.cons_append, find?, hfirst]
    exact ih fun e he => h e (by simp [he])

theorem put_middle (v : Value) :
    put (before ++ (key, old) :: after) key v = before ++ (key, v) :: after := by
  induction before with
  | nil => simp [put]
  | cons first rest ih =>
    have hfirst := h first (by simp)
    rw [List.cons_append, put, hfirst, ih fun e he => h e (by simp [he])]
    rfl

end

/-- Putting entries in turn appends them when all keys are told apart. -/
theorem foldl_put {entries acc : List (Value × Value)} (hentries : KeysApart entries)
    (hacc : ∀ a ∈ acc, ∀ b ∈ entries, a.1.sameKey b.1 = false) :
    entries.foldl (fun acc (k, v) => put acc k v) acc = acc ++ entries := by
  induction entries generalizing acc with
  | nil => simp
  | cons first rest ih =>
    obtain ⟨k, v⟩ := first
    obtain ⟨hfirst, hrest⟩ := List.pairwise_cons.1 hentries
    have hput : put acc k v = acc ++ [(k, v)] := put_of_absent v fun a ha => hacc a ha (k, v) (by simp)
    rw [List.foldl_cons]
    simp only [hput]
    rw [ih hrest]
    · simp
    · intro a ha b hb
      rcases List.mem_append.1 ha with ha | ha
      · exact hacc a ha b (by simp [hb])
      · rw [List.mem_singleton.1 ha]
        exact hfirst b hb

/-! ## Depth -/

theorem depth_le_of_mem_items {items : List Value} {v : Value} (h : v ∈ items) :
    v.depth ≤ depthItems items := by
  induction items with
  | nil => cases h
  | cons w rest ih =>
    rw [depthItems]
    rcases List.mem_cons.1 h with rfl | hrest
    · omega
    · have := ih hrest
      omega

theorem depth_le_of_mem_entries {entries : List (Value × Value)} {entry : Value × Value}
    (h : entry ∈ entries) :
    entry.1.depth ≤ depthEntries entries ∧ entry.2.depth ≤ depthEntries entries := by
  induction entries with
  | nil => cases h
  | cons first rest ih =>
    rw [depthEntries]
    rcases List.mem_cons.1 h with rfl | hrest
    · omega
    · have := ih hrest
      omega

theorem find?_mem {entries : List (Value × Value)} {key v : Value} (h : find? entries key = some v) :
    ∃ k, (k, v) ∈ entries := by
  induction entries with
  | nil => cases h
  | cons first rest ih =>
    obtain ⟨k, w⟩ := first
    rw [find?] at h
    split at h
    · cases h
      exact ⟨k, by simp⟩
    · obtain ⟨k', hk'⟩ := ih h
      exact ⟨k', by simp [hk']⟩

/-- An entry of a dictionary is less deep than the dictionary. -/
theorem depth_lt_of_find? {entries : List (Value × Value)} {key v : Value}
    (h : find? entries key = some v) : v.depth < (Value.dict entries).depth := by
  obtain ⟨k, hk⟩ := find?_mem h
  have hv : v.depth ≤ depthEntries entries := (depth_le_of_mem_entries hk).2
  rw [depth]
  omega

/-- What iterating over a value yields is not deeper than the value. -/
theorem depth_le_of_items? {v w : Value} {items : List Value} (h : v.items? = some items)
    (hw : w ∈ items) : w.depth ≤ v.depth := by
  cases v with
  | none | bool _ | int _ | float _ => cases h
  | str s =>
    cases h
    obtain ⟨c, -, rfl⟩ := List.mem_map.1 hw
    simp [depth]
  | bytes b =>
    cases h
    obtain ⟨x, -, rfl⟩ := List.mem_map.1 hw
    simp [depth]
  | list xs =>
    cases h
    have := depth_le_of_mem_items hw
    rw [depth]
    omega
  | dict entries =>
    cases h
    obtain ⟨entry, hentry, rfl⟩ := List.mem_map.1 hw
    have := (depth_le_of_mem_entries hentry).1
    rw [depth]
    omega

end Value

end ProtoScribe
