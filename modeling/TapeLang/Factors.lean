/-!
# Factor tables

A factor table gives some offsets a signed byte each: the factor of a multiplication, or the total
that a stretch of increments adds to the cell there. The offsets are kept in ascending order, so
each table has one representation and equality of tables is equality of lists. `get?` is the view
through which the operations are described.
-/

set_option autoImplicit false

namespace TapeLang

/-- Offsets in ascending order, each with its factor. -/
structure Factors where
  entries : List (Int × Int8)
  ascending : entries.Pairwise (fun a b => a.1 < b.1)
  deriving DecidableEq

namespace Factors

/-- The entries with the one at `offset` set to `f` of what stood there; `f none` is inserted where
nothing stood. -/
def upsert (offset : Int) (f : Option Int8 → Int8) : List (Int × Int8) → List (Int × Int8)
  | [] => [(offset, f none)]
  | (k, v) :: rest =>
      if offset < k then (offset, f none) :: (k, v) :: rest
      else if offset = k then (k, f (some v)) :: rest
      else (k, v) :: upsert offset f rest

/-- An update brings in no offset but its own. -/
theorem mem_upsert {offset : Int} {f : Option Int8 → Int8} {e : Int × Int8} :
    ∀ {l : List (Int × Int8)}, e ∈ upsert offset f l → e.1 = offset ∨ e ∈ l
  | [], h => by
      simp only [upsert, List.mem_singleton] at h
      exact Or.inl (by rw [h])
  | (k, v) :: rest, h => by
      rw [upsert] at h
      split at h
      · rcases List.mem_cons.1 h with h | h
        · exact Or.inl (by rw [h])
        · exact Or.inr h
      · split at h
        next heq =>
          rcases List.mem_cons.1 h with h | h
          · exact Or.inl (by rw [h, heq])
          · exact Or.inr (List.mem_cons_of_mem _ h)
        next =>
          rcases List.mem_cons.1 h with h | h
          · exact Or.inr (by rw [h]; exact List.mem_cons_self)
          · rcases mem_upsert h with h | h
            · exact Or.inl h
            · exact Or.inr (List.mem_cons_of_mem _ h)

/-- An update keeps the offsets in ascending order. -/
theorem pairwise_upsert (offset : Int) (f : Option Int8 → Int8) :
    ∀ {l : List (Int × Int8)}, l.Pairwise (fun a b => a.1 < b.1) →
      (upsert offset f l).Pairwise (fun a b => a.1 < b.1)
  | [], _ => by simp [upsert]
  | (k, v) :: rest, h => by
      have hrest := List.pairwise_cons.1 h
      rw [upsert]
      split
      next hlt =>
        refine List.pairwise_cons.2 ⟨?_, h⟩
        intro e he
        rcases List.mem_cons.1 he with rfl | he
        · exact hlt
        · exact Int.lt_trans hlt (hrest.1 e he)
      next hge =>
        split
        next => exact List.pairwise_cons.2 ⟨hrest.1, hrest.2⟩
        next hne =>
          refine List.pairwise_cons.2 ⟨?_, pairwise_upsert offset f hrest.2⟩
          intro e he
          rcases mem_upsert he with he | he
          · show k < e.1
            omega
          · exact hrest.1 e he

/-- The table without entries. -/
def empty : Factors := ⟨[], List.Pairwise.nil⟩

/-- The table with `factor` at `offset`, in place of what stood there. -/
def insert (t : Factors) (offset : Int) (factor : Int8) : Factors :=
  ⟨upsert offset (fun _ => factor) t.entries, pairwise_upsert _ _ t.ascending⟩

/-- The table with `amount` added at `offset`; an absent entry counts as zero and becomes present. -/
def bump (t : Factors) (offset : Int) (amount : Int8) : Factors :=
  ⟨upsert offset (fun old => old.getD 0 + amount) t.entries, pairwise_upsert _ _ t.ascending⟩

/-- The table of a list of pairs. Of two pairs at one offset the later one counts. -/
def ofList (pairs : List (Int × Int8)) : Factors :=
  pairs.foldl (fun t e => t.insert e.1 e.2) empty

/-- The factor at an offset. -/
def get? (t : Factors) (offset : Int) : Option Int8 := t.entries.lookup offset

@[simp] theorem get?_empty (offset : Int) : empty.get? offset = none := rfl

/-- An update acts on its own offset and leaves what stands at every other one. Ascending order is
what keeps a later entry from standing at an offset that was passed. -/
theorem lookup_upsert (offset k : Int) (f : Option Int8 → Int8) {l : List (Int × Int8)}
    (h : l.Pairwise (fun a b => a.1 < b.1)) :
    (upsert offset f l).lookup k =
      if k = offset then some (f (l.lookup offset)) else l.lookup k := by
  have skip : k ≠ offset → (k == offset) = false := fun hk => by simpa using hk
  induction l with
  | nil => by_cases hk : k = offset <;> simp [upsert, List.lookup_cons, hk, skip]
  | cons e rest ih =>
      have hrest := List.pairwise_cons.1 h
      have absent : offset < e.1 → rest.lookup offset = none := fun hlt =>
        List.lookup_eq_none_iff.2 fun p hp => by
          have := hrest.1 p hp
          simp only [bne_iff_ne, ne_eq]
          omega
      have ih := ih hrest.2
      obtain ⟨m, v⟩ := e
      rw [upsert]
      split
      next hlt =>
        have hm : (offset == m) = false := by simp; omega
        by_cases hk : k = offset
        · subst hk
          simp [List.lookup_cons, hm, absent hlt]
        · simp [List.lookup_cons, hk, skip]
      next hge =>
        split
        next heq =>
          subst heq
          by_cases hk : k = offset <;> simp [List.lookup_cons, hk, skip]
        next hne =>
          have hm : (offset == m) = false := by simpa using hne
          by_cases hk : k = offset
          · subst hk
            simpa [List.lookup_cons, hm] using ih
          · simp only [List.lookup_cons, ih, if_neg hk]

theorem get?_insert (t : Factors) (offset k : Int) (factor : Int8) :
    (t.insert offset factor).get? k = if k = offset then some factor else t.get? k :=
  lookup_upsert offset k _ t.ascending

theorem get?_bump (t : Factors) (offset k : Int) (amount : Int8) :
    (t.bump offset amount).get? k =
      if k = offset then some ((t.get? offset).getD 0 + amount) else t.get? k :=
  lookup_upsert offset k _ t.ascending

/-- The entries that satisfy a test. -/
def filter (t : Factors) (keep : Int × Int8 → Bool) : Factors :=
  ⟨t.entries.filter keep, t.ascending.filter keep⟩

/-- The number of entries. -/
def size (t : Factors) : Nat := t.entries.length

/-- The offsets, in ascending order. -/
def offsets (t : Factors) : List Int := t.entries.map (·.1)

/-- The least offset. -/
def least? (t : Factors) : Option Int := t.offsets.head?

/-- The greatest offset. -/
def greatest? (t : Factors) : Option Int := t.offsets.getLast?

end Factors

end TapeLang
