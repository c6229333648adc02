import Mathlib.Data.Int.Order.Basic
import Mathlib.Data.List.Sort
import TapeLang.Factors

/-!
# Factor tables as functions

No offset stands twice in a table, so membership of an entry and the factor at its offset say the
same (`mem_entries_iff`), a table is determined by its factors (`ext_get?`), and a selection of
entries is a selection at each offset (`get?_filter`). The first and the last entry have the least
and the greatest offset.
-/

set_option autoImplicit false

namespace TapeLang.Factors

theorem mem_iff_lookup {l : List (Int × Int8)} (h : l.Pairwise (fun a b => a.1 < b.1)) (k : Int)
    (v : Int8) : (k, v) ∈ l ↔ l.lookup k = some v := by
  induction l with
  | nil => simp
  | cons e rest ih =>
      obtain ⟨m, w⟩ := e
      have hrest := List.pairwise_cons.1 h
      have ih := ih hrest.2
      by_cases hk : k = m
      · subst hk
        have habsent : (k, v) ∉ rest := fun hmem => lt_irrefl k (hrest.1 _ hmem)
        simp only [List.mem_cons, Prod.mk.injEq, true_and, List.lookup_cons_self,
          Option.some.injEq]
        exact ⟨fun hv => hv.elim Eq.symm fun hmem => absurd hmem habsent, fun hv => Or.inl hv.symm⟩
      · have hne : (k == m) = false := by simpa using hk
        simp only [List.mem_cons, Prod.mk.injEq, hk, false_and, false_or, List.lookup_cons, hne, ih]

/-- An offset before all entries has no factor. -/
theorem lookup_eq_none_of_lt {l : List (Int × Int8)} {k : Int} (h : ∀ e ∈ l, k < e.1) :
    l.lookup k = none := by
  apply List.lookup_eq_none_iff.2
  intro e he
  have hlt := h e he
  simp only [bne_iff_ne, ne_eq]
  omega

/-- The first entry has the least offset. -/
theorem head_le_of_mem {first e : Int × Int8} {rest : List (Int × Int8)}
    (h : (first :: rest).Pairwise (fun a b => a.1 < b.1)) (he : e ∈ first :: rest) :
    first.1 ≤ e.1 := by
  rcases List.mem_cons.1 he with rfl | he
  · exact le_refl _
  · exact le_of_lt ((List.pairwise_cons.1 h).1 e he)

theorem mem_entries_iff (t : Factors) (k : Int) (v : Int8) :
    (k, v) ∈ t.entries ↔ t.get? k = some v :=
  mem_iff_lookup t.ascending k v

/-- Tables with the same factor at every offset are the same. -/
theorem ext_get? {t t' : Factors} (h : ∀ k, t.get? k = t'.get? k) : t = t' := by
  have hirrefl : Std.Irrefl fun a b : Int × Int8 => a.1 < b.1 := ⟨fun a => lt_irrefl a.1⟩
  have hantisymm : Std.Antisymm fun a b : Int × Int8 => a.1 < b.1 :=
    ⟨fun a b hab hba => absurd hab (lt_asymm hba)⟩
  have hentries : t.entries = t'.entries := by
    apply List.Pairwise.eq_of_mem_iff t.ascending t'.ascending
    rintro ⟨k, v⟩
    rw [mem_entries_iff, mem_entries_iff, h k]
  cases t
  cases t'
  cases hentries
  rfl

theorem get?_filter (t : Factors) (keep : Int × Int8 → Bool) (k : Int) :
    (t.filter keep).get? k = (t.get? k).filter fun v => keep (k, v) := by
  apply Option.ext
  intro v
  rw [← mem_entries_iff, Option.filter_eq_some_iff, ← mem_entries_iff]
  exact List.mem_filter

theorem pairwise_offsets (t : Factors) : t.offsets.Pairwise (· < ·) :=
  List.pairwise_map.2 t.ascending

theorem least?_eq_none_iff (t : Factors) : t.least? = none ↔ t.entries = [] := by
  rw [least?, offsets, List.head?_eq_none_iff, List.map_eq_nil_iff]

theorem least_le {t : Factors} {least k : Int} (h : t.least? = some least) (hk : k ∈ t.offsets) :
    least ≤ k := by
  have hascending := t.pairwise_offsets
  rw [least?] at h
  cases hl : t.offsets with
  | nil => simp [hl] at h
  | cons first rest =>
      rw [hl] at h hk hascending
      cases h
      rcases List.mem_cons.1 hk with rfl | hk
      · exact le_refl _
      · exact le_of_lt ((List.pairwise_cons.1 hascending).1 k hk)

/-- The least offset belongs to the first entry. -/
theorem entries_of_least? {t : Factors} {k : Int} (h : t.least? = some k) :
    ∃ factor rest, t.entries = (k, factor) :: rest := by
  rw [least?, offsets, List.head?_map, Option.map_eq_some_iff] at h
  obtain ⟨⟨offset, factor⟩, hfirst, rfl⟩ := h
  obtain ⟨rest, hentries⟩ := List.head?_eq_some_iff.1 hfirst
  exact ⟨factor, rest, hentries⟩

theorem mem_of_least? {t : Factors} {k : Int} (h : t.least? = some k) : k ∈ t.offsets :=
  List.mem_of_head? h

theorem least?_eq_some_iff (t : Factors) (k : Int) :
    t.least? = some k ↔ k ∈ t.offsets ∧ ∀ j ∈ t.offsets, k ≤ j := by
  constructor
  · exact fun h => ⟨mem_of_least? h, fun j hj => least_le h hj⟩
  · rintro ⟨hmem, hle⟩
    cases hleast : t.least? with
    | none =>
        rw [least?, List.head?_eq_none_iff] at hleast
        rw [hleast] at hmem
        cases hmem
    | some first =>
        have hfirst := least_le hleast hmem
        have hk := hle first (mem_of_least? hleast)
        rw [le_antisymm hfirst hk]

theorem le_greatest {t : Factors} {greatest k : Int} (h : t.greatest? = some greatest)
    (hk : k ∈ t.offsets) : k ≤ greatest := by
  have hascending := t.pairwise_offsets
  rw [greatest?, List.getLast?_eq_some_iff] at h
  rcases h with ⟨front, hfront⟩
  rw [hfront] at hk hascending
  rcases List.mem_append.1 hk with hk | hk
  · exact le_of_lt ((List.pairwise_append.1 hascending).2.2 k hk greatest List.mem_cons_self)
  · exact le_of_eq (List.mem_singleton.1 hk)

theorem greatest?_of_mem {t : Factors} {k : Int} (hk : k ∈ t.offsets) :
    ∃ greatest, t.greatest? = some greatest := by
  rw [greatest?]
  exact ⟨_, List.getLast?_eq_some_getLast (List.ne_nil_of_mem hk)⟩

end TapeLang.Factors
