/-!
# Finite maps from names

A map is the list of its entries in increasing order of their names, each name once, so two maps
with the same entries are the same map. Names compare character by character, by code point.

Main statements: `get?_empty`, `get?_insert`, `get?_map` and `get?_traverse` say what a map holds,
`get?_eq_some_iff` that it holds its entries, `traverse_eq_error_iff` where a replacement of all
values fails, and `length_names_insert` how many names there are.
-/

namespace RationalAlgebra

/-- A finite map from names: its entries, strictly increasing by name. -/
structure NameMap (α : Type) where
  entries : List (String × α)
  sorted : (entries.map Prod.fst).Pairwise (· < ·) := by simp

namespace NameMap

variable {α β ε : Type}

/-- The map without entries. -/
def empty : NameMap α :=
  ⟨[], by simp⟩

/-- The value stored under a name. -/
def get? (m : NameMap α) (name : String) : Option α :=
  m.entries.lookup name

/-- The names of a map, in increasing order. -/
def names (m : NameMap α) : List String :=
  m.entries.map Prod.fst

/-! ## Insertion -/

/-- Store a value under a name among sorted entries, in place of the value that was there. -/
def insertEntry (name : String) (value : α) : List (String × α) → List (String × α)
  | [] => [(name, value)]
  | (n, v) :: rest =>
    if name < n then (name, value) :: (n, v) :: rest
    else if name = n then (name, value) :: rest
    else (n, v) :: insertEntry name value rest

/-- An insertion brings in no name but its own. -/
theorem mem_names_insertEntry {name x : String} {value : α} {entries : List (String × α)}
    (h : x ∈ (insertEntry name value entries).map Prod.fst) :
    x = name ∨ x ∈ entries.map Prod.fst := by
  induction entries with
  | nil => simpa [insertEntry] using h
  | cons head rest ih =>
    obtain ⟨n, v⟩ := head
    rw [insertEntry] at h
    split at h
    · simpa using h
    · split at h
      · -- The name is there: the entry is exchanged, and the names stay.
        rename_i heq
        subst heq
        rcases (by simpa using h) with rfl | h
        · exact Or.inl rfl
        · exact Or.inr (by simp [h])
      · rcases (by simpa using h) with rfl | h
        · exact Or.inr (by simp)
        · rcases ih (by simpa using h) with rfl | h
          · exact Or.inl rfl
          · exact Or.inr (List.mem_cons_of_mem _ h)

/-- An insertion keeps the names increasing, so that no name stands twice. -/
theorem sorted_insertEntry (name : String) (value : α) {entries : List (String × α)}
    (h : (entries.map Prod.fst).Pairwise (· < ·)) :
    ((insertEntry name value entries).map Prod.fst).Pairwise (· < ·) := by
  induction entries with
  | nil => simp [insertEntry]
  | cons head rest ih =>
    obtain ⟨n, v⟩ := head
    simp only [List.map_cons, List.pairwise_cons] at h
    rw [insertEntry]
    split
    · -- The new name is the smallest.
      rename_i hlt
      simp only [List.map_cons, List.pairwise_cons]
      refine ⟨fun x hx => ?_, h⟩
      rcases List.mem_cons.1 hx with rfl | hx
      · exact hlt
      · exact String.lt_trans hlt (h.1 x hx)
    · split
      · -- The name is there already, and keeps its place.
        rename_i heq
        subst heq
        simpa using h
      · -- The new name is larger than the first, and finds its place in the rest.
        rename_i hnlt hne
        simp only [List.map_cons, List.pairwise_cons]
        refine ⟨fun x hx => ?_, ih h.2⟩
        rcases mem_names_insertEntry hx with rfl | hx
        · exact Decidable.byContradiction fun hnot =>
            hne (String.le_antisymm (String.not_lt.1 hnot) (String.not_lt.1 hnlt))
        · exact h.1 x hx

/-- Store a value under a name, in place of the value that was there. -/
def insert (m : NameMap α) (name : String) (value : α) : NameMap α :=
  ⟨insertEntry name value m.entries, sorted_insertEntry name value m.sorted⟩

/-- The map with these entries; of two values for one name the later stays. -/
def ofList (entries : List (String × α)) : NameMap α :=
  entries.foldl (fun m e => m.insert e.1 e.2) empty

/-! ## Maps of values -/

/-- Replace every value by its image. -/
def map (m : NameMap α) (f : α → β) : NameMap β :=
  ⟨m.entries.map fun e => (e.1, f e.2), by simpa [List.map_map, Function.comp_def] using m.sorted⟩

/-- Replace the values one after another, in order of the names, and stop at the first failure. -/
def traverseEntries (f : α → Except ε β) : List (String × α) → Except ε (List (String × β))
  | [] => .ok []
  | (name, value) :: rest =>
    match f value with
    | .error e => .error e
    | .ok image =>
      match traverseEntries f rest with
      | .error e => .error e
      | .ok images => .ok ((name, image) :: images)

/-- A replacement of values leaves the names in place. -/
theorem names_traverseEntries {f : α → Except ε β} {entries : List (String × α)}
    {images : List (String × β)} (h : traverseEntries f entries = .ok images) :
    images.map Prod.fst = entries.map Prod.fst := by
  induction entries generalizing images with
  | nil =>
    cases h
    rfl
  | cons head rest ih =>
    obtain ⟨name, value⟩ := head
    rw [traverseEntries] at h
    split at h
    · cases h
    · split at h
      · cases h
      · rename_i hrest
        cases h
        simp [ih hrest]

/-- Replace every value, in order of the names; the first failure is the answer. -/
def traverse (m : NameMap α) (f : α → Except ε β) : Except ε (NameMap β) :=
  match h : traverseEntries f m.entries with
  | .error e => .error e
  | .ok images => .ok ⟨images, by rw [names_traverseEntries h]; exact m.sorted⟩

/-! ## What a map holds -/

@[simp]
theorem get?_empty (name : String) : (empty : NameMap α).get? name = none :=
  rfl

/-- The first entry answers for its own name, and the rest for every other name. -/
theorem lookup_cons_entry (name x : String) (value : α) (rest : List (String × α)) :
    ((name, value) :: rest).lookup x = if x = name then some value else rest.lookup x := by
  rw [List.lookup_cons]
  by_cases hx : x = name
  · simp [hx]
  · simp [hx, beq_eq_false_iff_ne.2 hx]

/-- An insertion among entries that need not be in order. What a lookup finds is the first entry of
a name, and the insertion comes before it. -/
theorem lookup_insertEntry (name x : String) (value : α) (entries : List (String × α)) :
    (insertEntry name value entries).lookup x =
      if x = name then some value else entries.lookup x := by
  induction entries with
  | nil => rw [insertEntry, lookup_cons_entry]
  | cons head rest ih =>
    obtain ⟨n, v⟩ := head
    rw [insertEntry]
    split
    · rw [lookup_cons_entry]
    · split
      · rename_i heq
        subst heq
        rw [lookup_cons_entry, lookup_cons_entry]
        split <;> rfl
      · rename_i hne
        rw [lookup_cons_entry, lookup_cons_entry, ih]
        -- The inserted name is not the first one here, so the two questions do not interfere.
        by_cases hx : x = name
        · subst hx
          simp [hne]
        · simp [hx]

/-- After an insertion the name has the new value, and every other name what it had. -/
@[simp]
theorem get?_insert (m : NameMap α) (name x : String) (value : α) :
    (m.insert name value).get? x = if x = name then some value else m.get? x :=
  lookup_insertEntry name x value m.entries

@[simp]
theorem get?_map (m : NameMap α) (f : α → β) (name : String) :
    (m.map f).get? name = (m.get? name).map f := by
  simp only [get?, map]
  induction m.entries with
  | nil => rfl
  | cons head rest ih =>
    obtain ⟨n, v⟩ := head
    rw [List.map_cons, lookup_cons_entry, lookup_cons_entry, ih]
    split <;> rfl

/-- Where the names increase, a lookup finds every entry. -/
theorem lookup_eq_some_iff {entries : List (String × α)}
    (h : (entries.map Prod.fst).Pairwise (· < ·)) {name : String} {value : α} :
    entries.lookup name = some value ↔ (name, value) ∈ entries := by
  induction entries with
  | nil => simp
  | cons head rest ih =>
    obtain ⟨n, v⟩ := head
    simp only [List.map_cons, List.pairwise_cons] at h
    rw [lookup_cons_entry, List.mem_cons]
    by_cases hx : name = n
    · subst hx
      -- The names increase, so this one does not stand again in the rest.
      have hnot : (name, value) ∉ rest := fun hmem =>
        String.lt_irrefl name (h.1 name (List.mem_map_of_mem hmem))
      simp [hnot, eq_comm]
    · simp [hx, ih h.2]

/-- A name has a value exactly when the two stand together among the entries. -/
theorem get?_eq_some_iff (m : NameMap α) {name : String} {value : α} :
    m.get? name = some value ↔ (name, value) ∈ m.entries :=
  lookup_eq_some_iff m.sorted

/-- What a map holds after a value is stored for each of some names: a name that occurs several
times has one value, since the value is a function of the name. -/
theorem get?_foldl_insert (f : String → α) (names : List String) (m : NameMap α) (x : String) :
    (names.foldl (fun m n => m.insert n (f n)) m).get? x =
      if x ∈ names then some (f x) else m.get? x := by
  induction names generalizing m with
  | nil => simp
  | cons n names ih =>
    rw [List.foldl_cons, ih, get?_insert]
    by_cases hx : x ∈ names
    · simp [hx]
    · by_cases hn : x = n
      · subst hn
        simp
      · simp [hx, hn]

/-- Entries that a function gives to some names hold its values. -/
theorem get?_ofList_map (f : String → α) {names : List String} {x : String} (h : x ∈ names) :
    (ofList (names.map fun n => (n, f n))).get? x = some (f x) := by
  rw [ofList, List.foldl_map, get?_foldl_insert, if_pos h]

/-- A name is looked up before the replacement or after it, to the same effect. -/
theorem lookup_traverseEntries {f : α → Except ε β} {entries : List (String × α)}
    {images : List (String × β)} (h : traverseEntries f entries = .ok images) (name : String) :
    (images.lookup name).map .ok = (entries.lookup name).map f := by
  induction entries generalizing images with
  | nil =>
    cases h
    rfl
  | cons head rest ih =>
    obtain ⟨n, value⟩ := head
    rw [traverseEntries] at h
    split at h
    · cases h
    · rename_i image himage
      split at h
      · cases h
      · rename_i images' hrest
        cases h
        rw [lookup_cons_entry, lookup_cons_entry]
        split
        · rw [Option.map_some, Option.map_some, himage]
        · exact ih hrest

/-- Where every replacement succeeds, a name holds the image of what it held. -/
theorem get?_traverse {m : NameMap α} {f : α → Except ε β} {m' : NameMap β}
    (h : m.traverse f = .ok m') (name : String) :
    (m'.get? name).map .ok = (m.get? name).map f := by
  unfold traverse at h
  split at h
  · cases h
  · rename_i images himages
    cases h
    exact lookup_traverseEntries himages name

/-- The first of some entries, in the order of the names, of which the replacement fails. -/
theorem traverseEntries_eq_error_iff {f : α → Except ε β} {entries : List (String × α)}
    (h : (entries.map Prod.fst).Pairwise (· < ·)) {e : ε} :
    traverseEntries f entries = .error e ↔ ∃ x a, (x, a) ∈ entries ∧ f a = .error e ∧
      ∀ y b, (y, b) ∈ entries → y < x → ∃ c, f b = .ok c := by
  induction entries with
  | nil => simp [traverseEntries]
  | cons head rest ih =>
    obtain ⟨n, value⟩ := head
    simp only [List.map_cons, List.pairwise_cons] at h
    have hfirst : ∀ x a, (x, a) ∈ rest → n < x :=
      fun x a hmem => h.1 x (List.mem_map_of_mem hmem)
    rw [traverseEntries]
    -- The first entry fails, and then no other matters; or it succeeds, and the first failure is
    -- that of the rest.
    cases hvalue : f value with
    | error e' =>
      simp only [Except.error.injEq]
      constructor
      · rintro rfl
        refine ⟨n, value, List.mem_cons_self, hvalue, fun y b hmem hlt => ?_⟩
        rcases List.mem_cons.1 hmem with heq | hmem
        · cases heq
          exact absurd hlt (String.lt_irrefl _)
        · exact absurd (String.lt_trans hlt (hfirst y b hmem)) (String.lt_irrefl _)
      · rintro ⟨x, a, hmem, ha, hbefore⟩
        rcases List.mem_cons.1 hmem with heq | hmem
        · cases heq
          rw [hvalue] at ha
          exact Except.error.inj ha
        · -- The first entry stands before any other, and fails.
          obtain ⟨c, hc⟩ := hbefore n value List.mem_cons_self (hfirst x a hmem)
          rw [hvalue] at hc
          cases hc
    | ok image =>
      -- The first image does not change whether the rest fails.
      have hrest : (match traverseEntries f rest with
          | .error e => .error e
          | .ok images => .ok ((n, image) :: images)) = Except.error e ↔
          traverseEntries f rest = .error e := by
        cases traverseEntries f rest <;> simp
      rw [hrest, ih h.2]
      constructor
      · rintro ⟨x, a, hmem, ha, hbefore⟩
        refine ⟨x, a, List.mem_cons_of_mem _ hmem, ha, fun y b hmem' hlt => ?_⟩
        rcases List.mem_cons.1 hmem' with heq | hmem'
        · cases heq
          exact ⟨image, hvalue⟩
        · exact hbefore y b hmem' hlt
      · rintro ⟨x, a, hmem, ha, hbefore⟩
        rcases List.mem_cons.1 hmem with heq | hmem
        · cases heq
          rw [hvalue] at ha
          cases ha
        · exact ⟨x, a, hmem, ha, fun y b hmem' hlt =>
            hbefore y b (List.mem_cons_of_mem _ hmem') hlt⟩

/-- A failure is that of the first replacement that fails, in the order of the names. -/
theorem traverse_eq_error_iff {m : NameMap α} {f : α → Except ε β} {e : ε} :
    m.traverse f = .error e ↔ ∃ x a, m.get? x = some a ∧ f a = .error e ∧
      ∀ y b, m.get? y = some b → y < x → ∃ c, f b = .ok c := by
  simp only [get?_eq_some_iff]
  rw [← traverseEntries_eq_error_iff m.sorted]
  unfold traverse
  split
  · rename_i he
    simp [he]
  · rename_i images himages
    simp [himages]

/-! ## Names -/

/-- No name stands twice. -/
theorem nodup_names (m : NameMap α) : m.names.Nodup :=
  m.sorted.imp fun {x y} (hlt : x < y) (heq : x = y) => String.lt_irrefl y (heq ▸ hlt)

/-- A name is one of a map exactly if it has a value. -/
theorem mem_names_iff {m : NameMap α} {name : String} :
    name ∈ m.names ↔ ∃ value, m.get? name = some value := by
  simp only [names, get?_eq_some_iff, List.mem_map, Prod.exists, exists_and_right, exists_eq_right]

/-- A name that a map does not have has no value. -/
theorem not_mem_names_iff {m : NameMap α} {name : String} :
    name ∉ m.names ↔ m.get? name = none := by
  rw [mem_names_iff, ← Option.isSome_iff_exists, Bool.not_eq_true, Option.isSome_eq_false_iff,
    Option.isNone_iff_eq_none]

@[simp]
theorem names_map (m : NameMap α) (f : α → β) : (m.map f).names = m.names := by
  simp [names, map]

/-- A replacement that succeeds keeps the names. -/
theorem names_traverse {m : NameMap α} {f : α → Except ε β} {m' : NameMap β}
    (h : m.traverse f = .ok m') : m'.names = m.names := by
  unfold traverse at h
  split at h
  · cases h
  · rename_i images himages
    cases h
    exact names_traverseEntries himages

/-- An entry for a new name makes the list one longer. -/
theorem length_insertEntry {name : String} {value : α} {entries : List (String × α)}
    (h : entries.lookup name = none) :
    (insertEntry name value entries).length = entries.length + 1 := by
  induction entries with
  | nil => rfl
  | cons head rest ih =>
    obtain ⟨n, v⟩ := head
    rw [lookup_cons_entry] at h
    split at h
    · cases h
    · -- The name is not the first one, so the entry comes before it or goes into the rest.
      rename_i hne
      rw [insertEntry]
      split
      · rfl
      · rw [List.length_cons, List.length_cons, ih h]

/-- A name without a value comes in as one more. -/
theorem length_names_insert {m : NameMap α} {name : String} (h : m.get? name = none)
    (value : α) : (m.insert name value).names.length = m.names.length + 1 := by
  simp only [names, insert, List.length_map]
  exact length_insertEntry h

end NameMap

end RationalAlgebra
