import Mathlib.Data.Option.Basic
import TapeLang.Proofs.Extent
import TapeLang.Proofs.FailedOperations
import TapeLang.Proofs.Optimizer.Inventory
import TapeLang.Proofs.Optimizer.Transfers
import TapeLang.Proofs.Source.Walks

/-!
# Operations spelled out

What an operation does and what its spelling does are the same, whatever program `q` follows
(`spelledAs_exec`). If the operation succeeds, running its spelling and then `q` is taking some
steps and then running `q`, from a machine with the same bytes (`Reduces`). If the operation fails,
so does its spelling, with a fault of the same kind and without another call of the device.

There is one exception. A multiplication stores the sum of a cell and a product at once, and where
the product is zero modulo 256 it needs no room for it. Its spelling adds the factor once in each
round. So in the last cell of the word, where there is room for zero only, the multiplication may
succeed and its spelling overflow (`Crowded`).
-/

set_option autoImplicit false

namespace TapeLang

/-- A fault of the same kind: the same failure of the device, or two underflows, or two
overflows. -/
def Fault.Alike : Fault → Fault → Prop
  | .tape e, .tape e' => e.Alike e'
  | .stream e, .stream e' => e = e'
  | _, _ => False

theorem Fault.Alike.refl (fault : Fault) : fault.Alike fault := by
  rcases fault with (⟨pointer, offset⟩ | e) | e
  · exact trivial
  · exact trivial
  · exact rfl

/-- An operation that has a text: not a move by zero, and not an addition of zero to the current
cell. -/
def Op.isWritten : Op → Bool
  | .shift amount => amount ≠ 0
  | .add amount offset => amount ≠ 0 || offset ≠ 0
  | _ => true

namespace Machine

variable {σ : Type} {D : Device σ}

/-! ## The first steps of a program -/

/-- Running `p` from `s` is taking `j` steps and then running `q` from `t`. -/
def Reduces (D : Device σ) (p : Program) (s : State σ) (j : Nat) (q : Program) (t : State σ) :
    Prop :=
  ∀ n x, BigStep D p s n x ↔ ∃ m, n = j + m ∧ BigStep D q t m x

/-- Running `p` from `s` ends with a fault of this kind, before the device has been called. -/
def Fails (D : Device σ) (p : Program) (s : State σ) (e : TapeFault) : Prop :=
  ∃ n e' t, BigStep D p s n (.failed (.tape e') t) ∧ e.Alike e' ∧ t.streams = s.streams

section Reduces

variable {p q : Program} {s t u : State σ} {i j m : Nat}

theorem Reduces.refl (p : Program) (s : State σ) : Reduces D p s 0 p s := by
  intro n x
  constructor
  · intro h
    exact ⟨n, (Nat.zero_add n).symm, h⟩
  · rintro ⟨m, rfl, h⟩
    rwa [Nat.zero_add]

theorem Reduces.trans {r : Program} (h : Reduces D p s i q t) (h' : Reduces D q t j r u) :
    Reduces D p s (i + j) r u := by
  intro n x
  constructor
  · intro hp
    obtain ⟨m, rfl, hq⟩ := (h n x).1 hp
    obtain ⟨k, rfl, hr⟩ := (h' m x).1 hq
    exact ⟨k, (Nat.add_assoc i j k).symm, hr⟩
  · rintro ⟨k, rfl, hr⟩
    rw [Nat.add_assoc]
    exact (h _ x).2 ⟨j + k, rfl, (h' _ x).2 ⟨k, rfl, hr⟩⟩

theorem reduces_op {o : Op} (h : exec D o s = .next t) (q : Program) :
    Reduces D (.op o q) s 1 q t := by
  intro n x
  constructor
  · intro hp
    cases hp with
    | op first later =>
        rw [h] at first
        cases first
        exact ⟨_, rfl, later⟩
    | op_failed first =>
        rw [h] at first
        cases first
  · rintro ⟨m, rfl, hq⟩
    exact .op h hq

theorem reduces_loop_left (hzero : s.tape.current = 0) (body q : Program) :
    Reduces D (.loop body q) s 1 q s := by
  intro n x
  constructor
  · intro hp
    cases hp with
    | loop_left _ later => exact ⟨_, rfl, later⟩
    | loop_entered nonzero _ _ => exact absurd hzero nonzero
    | loop_failed nonzero _ => exact absurd hzero nonzero
  · rintro ⟨m, rfl, hq⟩
    exact .loop_left hzero hq

/-- A body that ends leads back to its loop. -/
theorem reduces_loop_entered {body : Program} (hnonzero : s.tape.current ≠ 0)
    (hbody : BigStep D body s m (.next t)) (q : Program) :
    Reduces D (.loop body q) s (1 + m) (.loop body q) t := by
  intro n x
  constructor
  · intro hp
    cases hp with
    | loop_left zero _ => exact absurd zero hnonzero
    | loop_entered _ round again =>
        obtain ⟨rfl, hstate⟩ := hbody.unique round
        cases hstate
        exact ⟨_, rfl, again⟩
    | loop_failed _ round => cases (hbody.unique round).2
  · rintro ⟨k, rfl, hq⟩
    exact .loop_entered hnonzero hbody hq

theorem reduces_sequence {ops : List Op} : ∀ {s : State σ}, execs D ops s = .next t →
    ∀ q, Reduces D (.sequence ops q) s ops.length q t := by
  induction ops with
  | nil =>
      intro s h q
      cases h
      exact .refl q _
  | cons o ops ih =>
      intro s h q
      cases hexec : exec D o s with
      | next u =>
          rw [execs_cons_of_next hexec] at h
          rw [List.length_cons, Nat.add_comm]
          exact (reduces_op hexec _).trans (ih h q)
      | failed fault u =>
          rw [execs_cons_of_failed hexec] at h
          cases h

theorem Stumbles.fails {ops : List Op} {e : TapeFault} (h : Stumbles D ops s e) (q : Program) :
    Fails D (.sequence ops q) s e := by
  obtain ⟨e', t, hexecs, hrest⟩ := h
  suffices hstep : ∃ n, BigStep D (.sequence ops q) s n (.failed (.tape e') t) by
    obtain ⟨n, hn⟩ := hstep
    exact ⟨n, e', t, hn, hrest⟩
  clear hrest
  induction ops generalizing s with
  | nil => cases hexecs
  | cons o ops ih =>
      cases hexec : exec D o s with
      | next u =>
          rw [execs_cons_of_next hexec] at hexecs
          obtain ⟨n, hn⟩ := ih hexecs
          exact ⟨1 + n, .op hexec hn⟩
      | failed fault u =>
          rw [execs_cons_of_failed hexec] at hexecs
          cases hexecs
          exact ⟨1, .op_failed hexec⟩

theorem Fails.loop {body : Program} {e : TapeFault} (h : Fails D body s e)
    (hnonzero : s.tape.current ≠ 0) (q : Program) : Fails D (.loop body q) s e := by
  obtain ⟨n, e', t, hbody, hrest⟩ := h
  exact ⟨1 + n, e', t, .loop_failed hnonzero hbody, hrest⟩

end Reduces

/-! ## The loop of a multiplication -/

section Rounds

variable {entries : List (Int × Int8)}

theorem exec_minus {s : State σ} (hs : s.tape.InWord) (hnonzero : s.tape.current ≠ 0) :
    ∃ t, exec D (.add (-1) 0) s = .next t ∧
      Walked s.tape.pointer (fun i => if i = s.tape.pointer then 255 else 0) s t := by
  have hlt := hs.pointer_lt hnonzero
  have hroom := Tape.hasRoom_of_lt hlt (s.tape.current + (-1 : Int8).toUInt8)
  refine ⟨_, exec_add_here hroom hs.pointer_le, rfl, Tape.pointer_put _ _ _, fun j => ?_,
    Tape.kept_inWord.put hs hroom⟩
  rw [Tape.cell_put]
  by_cases hj : j = s.tape.pointer
  · rw [if_pos hj, if_pos hj, hj]
    rfl
  · rw [if_neg hj, if_neg hj, UInt8.add_zero]

/-- One round takes one from the current cell and adds to each cell its share. -/
theorem execs_round {s : State σ} (hs : s.tape.InWord) (hnonzero : s.tape.current ≠ 0)
    (hsorted : entries.Pairwise (fun a b => a.1 < b.1))
    (haccess : ∀ e ∈ entries, Accessible s.tape.pointer e) :
    ∃ t, execs D (roundOps entries) s = .next t ∧ Walked s.tape.pointer
      (fun i => (if i = s.tape.pointer then 255 else 0) + share entries s.tape.pointer i) s t := by
  obtain ⟨t, hexec, ht⟩ := exec_minus (D := D) hs hnonzero
  have hhere : (t.tape.pointer : Int) = s.tape.pointer + 0 := by
    rw [ht.pointer_eq, Int.add_zero]
  obtain ⟨u, htour, hu⟩ := execs_tour (D := D) hs.pointer_le hsorted haccess ht.inWord hhere
  refine ⟨u, (execs_cons_of_next hexec _).trans htour, hu.streams_eq.trans ht.streams_eq,
    hu.pointer_eq, fun j => ?_, hu.inWord⟩
  rw [hu.cell_eq, ht.cell_eq, UInt8.add_assoc]

theorem stumbles_round {s : State σ} {e : TapeFault} (hs : s.tape.InWord)
    (hnonzero : s.tape.current ≠ 0)
    (htour : ∀ t : State σ, t.tape.InWord → (t.tape.pointer : Int) = s.tape.pointer + 0 →
      Stumbles D (tourOps 0 entries) t e) : Stumbles D (roundOps entries) s e := by
  obtain ⟨t, hexec, ht⟩ := exec_minus (D := D) hs hnonzero
  have hfirst : execs D [.add (-1) 0] s = .next t := execs_cons_of_next hexec []
  refine (htour t ht.inWord ?_).after hfirst ht.streams_eq
  rw [ht.pointer_eq, Int.add_zero]

/-- The loop makes as many rounds as the current cell says. -/
theorem reduces_rounds (entries : List (Int × Int8))
    (hsorted : entries.Pairwise (fun a b => a.1 < b.1)) (hspares : entries.lookup 0 = none)
    (q : Program) : ∀ (n : Nat) {s : State σ}, s.tape.current.toNat = n → s.tape.InWord →
      (∀ e ∈ entries, Accessible s.tape.pointer e) →
        ∃ j t, Reduces D (.loop (.sequence (roundOps entries) .done) q) s (1 + j) q t ∧
          t.streams = s.streams ∧ t.tape.pointer = s.tape.pointer ∧ ∀ i, t.tape.cell i =
            if i = s.tape.pointer then 0
            else s.tape.cell i + s.tape.current * share entries s.tape.pointer i := by
  intro n
  induction n with
  | zero =>
      intro s hn _ _
      have hzero : s.tape.current = 0 := UInt8.toNat_inj.1 hn
      refine ⟨0, s, reduces_loop_left hzero _ q, rfl, rfl, fun i => ?_⟩
      split
      next hi => rw [hi, ← hzero, Tape.current]
      next => rw [hzero, UInt8.zero_mul, UInt8.add_zero]
  | succ n ih =>
      intro s hn hs haccess
      have hnonzero : s.tape.current ≠ 0 := by
        intro hzero
        rw [hzero] at hn
        cases hn
      obtain ⟨t, hround, ht⟩ := execs_round (D := D) hs hnonzero hsorted haccess
      have hbody : BigStep D (.sequence (roundOps entries) .done) s (roundOps entries).length
          (.next t) := (reduces_sequence hround .done _ _).2 ⟨0, rfl, .done t⟩
      -- the current cell has no share, so it has lost one
      have hshare : share entries s.tape.pointer s.tape.pointer = 0 := by
        rw [share, Int.sub_self, hspares]
        rfl
      have hcurrent : t.tape.current = s.tape.current - 1 := by
        rw [Tape.current, ht.cell_eq, ht.pointer_eq, if_pos rfl, hshare, Tape.current]
        grind
      have hn' : t.tape.current.toNat = n := by
        have hle : (1 : UInt8) ≤ s.tape.current := by
          rw [UInt8.le_iff_toNat_le, hn]
          exact Nat.succ_le_succ (Nat.zero_le n)
        rw [hcurrent, UInt8.toNat_sub_of_le _ _ hle, hn]
        rfl
      obtain ⟨j, u, hreduces, hstreams, hpointer, hcells⟩ := ih hn' ht.inWord
        (by rwa [ht.pointer_eq])
      rw [ht.pointer_eq] at hpointer hcells
      refine ⟨(roundOps entries).length + (1 + j), u, ?_, hstreams.trans ht.streams_eq, hpointer,
        fun i => ?_⟩
      · rw [← Nat.add_assoc]
        exact (reduces_loop_entered hnonzero hbody q).trans hreduces
      · rw [hcells, ht.cell_eq, hcurrent]
        split
        next => rfl
        next => grind

end Rounds

/-! ## Multiplications -/

section Multiply

variable {entries : List (Int × Int8)} {origin : UInt8} {t u : Tape} {e : TapeFault}

/-- The first entry of a table decides whether a multiplication underflows. -/
theorem spread_of_neg (origin : UInt8) (hsorted : entries.Pairwise (fun a b => a.1 < b.1))
    (hleast : ∀ e ∈ entries, -Word.greatest ≤ e.1)
    (hneg : ∃ e ∈ entries, (t.pointer : Int) + e.1 < 0) :
    ∃ i k, spread origin t entries = .error (.underflow i k, t) := by
  obtain ⟨e, he, hneg⟩ := hneg
  cases entries with
  | nil => cases he
  | cons first rest =>
      obtain ⟨offset, factor⟩ := first
      have hle : offset ≤ e.1 := Factors.head_le_of_mem hsorted he
      have hge : -Word.greatest ≤ offset := hleast (offset, factor) List.mem_cons_self
      have hfits : Word.fits ((t.pointer : Int) + offset) = true := by
        rw [Word.fits_iff]
        rw [Word.greatest] at hge ⊢
        rw [Word.least]
        omega
      have hindex : t.index offset = .error (.underflow t.pointer offset) :=
        Tape.index_eq_underflow_iff.2 ⟨rfl, rfl, by omega, hfits⟩
      exact ⟨t.pointer, offset,
        (spread_eq_underflow_iff hsorted).2 ⟨rfl, hindex, factor, rest, rfl⟩⟩

/-- A multiplication that reaches no place left of cell zero can only overflow. -/
theorem overflow_of_spread (hnonneg : ∀ e ∈ entries, 0 ≤ (t.pointer : Int) + e.1)
    (h : spread origin t entries = .error (e, u)) : ∃ x, e = .overflow x := by
  cases e with
  | underflow pointer k =>
      obtain ⟨entry, hentry, rfl, hneg⟩ := neg_of_spread_underflow h
      exact absurd (hnonneg entry hentry) (Int.not_le.2 hneg)
  | overflow x => exact ⟨x, rfl⟩

/-- A multiplication over accessible entries succeeds. -/
theorem spread_of_accessible (ht : t.InWord)
    (hsorted : entries.Pairwise (fun a b => a.1 < b.1))
    (haccess : ∀ e ∈ entries, Accessible t.pointer e) (origin : UInt8) :
    ∃ u, spread origin t entries = .ok u ∧ u.pointer = t.pointer ∧
      ∀ i, u.cell i = t.cell i + origin * share entries t.pointer i := by
  refine spread_of_usable origin hsorted fun e he => ?_
  obtain ⟨hnonneg, hle, hroom⟩ := haccess e he
  obtain ⟨i, hi⟩ := Int.eq_ofNat_of_zero_le hnonneg
  refine ⟨i, hi.symm, ?_, ?_⟩
  · rw [Word.fits_iff, Word.least]
    exact ⟨by omega, hle⟩
  · by_cases hlt : (i : Int) < Word.greatest
    · exact Tape.hasRoom_of_lt hlt _
    · -- in the last cell of the word the entry adds zero to zero
      have hfactor : e.2 = 0 := by
        by_contra hne
        exact hlt (hi ▸ hroom hne)
      rw [hfactor, ht.cell_eq i (Int.not_lt.1 hlt), show (0 : Int8).toUInt8 = 0 from rfl,
        UInt8.mul_zero, UInt8.add_zero]
      exact Tape.hasRoom_zero i

end Multiply

/-! ## What writing a program rules out -/

theorem neg_greatest_le_of_move {distance : Int} (h : moveOverflow? distance = none) :
    -Word.greatest ≤ distance := by
  rw [moveOverflow?] at h
  split at h
  next hle => omega
  next => cases h

theorem neg_greatest_le_of_tour {entries : List (Int × Int8)}
    (hsorted : entries.Pairwise (fun a b => a.1 < b.1)) (h : tourOverflow? 0 entries = none) :
    ∀ e ∈ entries, -Word.greatest ≤ e.1 := by
  intro e he
  cases entries with
  | nil => cases he
  | cons first rest =>
      obtain ⟨offset, amount⟩ := first
      simp only [tourOverflow?, Int.sub_zero] at h
      split at h
      next =>
        obtain ⟨hmove, -⟩ := (Option.orElse_eq_none _ _).1 h
        exact Int.le_trans (neg_greatest_le_of_move hmove) (Factors.head_le_of_mem hsorted he)
      next => cases h

/-! ## All operations -/

/-- The operation acts on the last cell of the word, or on a place beyond it. -/
def Crowded (o : Op) (s : State σ) : Prop :=
  s.tape.current ≠ 0 ∧ ∃ k ∈ o.offsets, Word.greatest ≤ s.tape.pointer + k

/-- The spelling of an operation does what the operation does, which ends as the last argument
says. -/
def SpelledAs (D : Device σ) (o : Op) (s : State σ) (q : Program) : Step σ → Prop
  | .next t =>
      (∃ j t', Reduces D (o.spelled q) s j q t' ∧ t.Same t' ∧ (o.isWritten = true → 0 < j)) ∨
        Crowded o s ∧ Fails D (o.spelled q) s (.overflow .capacity)
  | .failed fault t =>
      ∃ n fault' t', BigStep D (o.spelled q) s n (.failed fault' t') ∧ fault.Alike fault' ∧
        t.streams = t'.streams

section Operations

variable {s : State σ}

theorem Fails.spelledAs {o : Op} {q : Program} {e : TapeFault} {t : State σ}
    (h : Fails D (o.spelled q) s e) (hstreams : t.streams = s.streams) :
    SpelledAs D o s q (.failed (.tape e) t) := by
  obtain ⟨n, e', t', hstep, halike, hstreams'⟩ := h
  exact ⟨n, .tape e', t', hstep, halike, hstreams.trans hstreams'.symm⟩

theorem spelledAs_shift {amount : Int} (hs : s.tape.InWord)
    (hprint : moveOverflow? amount = none) (q : Program) :
    SpelledAs D (.shift amount) s q (exec D (.shift amount) s) := by
  rcases exec_shift_cases (D := D) (neg_greatest_le_of_move hprint) s with
    ⟨i, hexec, hi, hle⟩ | ⟨e, hexec, hat⟩
  · rw [hexec]
    refine Or.inl ⟨_, _, reduces_sequence (execs_moves i amount hs.pointer_le hle hi) q,
      .refl _, fun hwritten => ?_⟩
    have hne : amount ≠ 0 := by simpa [Op.isWritten] using hwritten
    rw [moveOps, List.length_replicate]
    omega
  · rw [hexec]
    exact Fails.spelledAs ((stumbles_moves hs.pointer_le hat).fails q) rfl

/-- An addition is a spread over one entry. -/
theorem exec_add_eq (amount : Int8) (offset : Int) (s : State σ) :
    exec D (.add amount offset) s =
      match spread 1 s.tape [(offset, amount)] with
      | .error (e, tape) => .failed (.tape e) { s with tape }
      | .ok tape => .next { s with tape } := by
  simp only [exec, spread, UInt8.one_mul]
  cases s.tape.revise offset (· + amount.toUInt8) <;> rfl

/-- The spelling of an addition is a tour over one entry. -/
theorem spelled_add (amount : Int8) (offset : Int) (q : Program) :
    (Op.add amount offset).spelled q = .sequence (tourOps 0 [(offset, amount)]) q := by
  rw [tourOps, tourOps, Int.sub_zero]
  rfl

theorem length_tour_pos {amount : Int8} {offset : Int}
    (h : (Op.add amount offset).isWritten = true) : 0 < (tourOps 0 [(offset, amount)]).length := by
  have hparts : (tourOps 0 [(offset, amount)]).length =
      (offset - 0).natAbs + amount.toInt.natAbs + (-offset).natAbs := by
    simp only [tourOps, moveOps, amountOps, List.length_append, List.length_replicate]
  rw [hparts]
  rw [Op.isWritten, Bool.or_eq_true, decide_eq_true_eq, decide_eq_true_eq] at h
  rcases h with hamount | hoffset
  · have hsize := natAbs_toInt_ne_zero hamount
    omega
  · omega

/-- An addition to the last cell of the word fails unless it adds zero. -/
theorem accessible_of_spread {amount : Int8} {offset : Int} {t u : Tape} (ht : t.InWord)
    (h : spread 1 t [(offset, amount)] = .ok u) : Accessible t.pointer (offset, amount) := by
  simp only [spread, UInt8.one_mul] at h
  cases hr : t.revise offset (· + amount.toUInt8) with
  | error e =>
      rw [hr] at h
      cases h
  | ok iv =>
      obtain ⟨hindex, hv, hroom⟩ := (Tape.revise_eq_ok_iff _ _ _ _ _).1 hr
      obtain ⟨hi, hfits⟩ := (Tape.index_eq_ok_iff _ _ _).1 hindex
      refine ⟨by omega, ((Word.fits_iff _).1 hfits).2, fun hamount => ?_⟩
      by_contra hedge
      rw [hv, ht.cell_eq _ (by omega), UInt8.zero_add, Tape.hasRoom, Bool.or_eq_true,
        decide_eq_true_eq, decide_eq_true_eq] at hroom
      rcases hroom with hzero | hlt
      · exact hamount (congrArg Int8.ofUInt8 hzero)
      · omega

theorem spelledAs_add {amount : Int8} {offset : Int} (hs : s.tape.InWord)
    (hprint : moveOverflow? offset = none) (q : Program) :
    SpelledAs D (.add amount offset) s q (exec D (.add amount offset) s) := by
  have hge := neg_greatest_le_of_move hprint
  have hsorted : [(offset, amount)].Pairwise (fun a b => a.1 < b.1) := List.pairwise_singleton _ _
  have hhere : (s.tape.pointer : Int) = s.tape.pointer + 0 := (Int.add_zero _).symm
  rw [exec_add_eq]
  rcases access_cases s.tape.pointer [(offset, amount)] with hneg | haccess | ⟨hnonneg, hblocked⟩
  · obtain ⟨i, k, hspread⟩ := spread_of_neg 1 hsorted (by simpa using hge) hneg
    rw [hspread]
    refine Fails.spelledAs ?_ rfl
    rw [spelled_add]
    exact (stumbles_tour_underflow hsorted hneg hs.pointer_le hhere i k).fails q
  · obtain ⟨u, hspread, hpointer, hcells⟩ := spread_of_accessible hs hsorted haccess 1
    obtain ⟨t, htour, ht⟩ := execs_tour (D := D) hs.pointer_le hsorted haccess hs hhere
    rw [hspread]
    refine Or.inl ⟨(tourOps 0 [(offset, amount)]).length, t, ?_,
      ⟨ht.streams_eq.symm, ?_, fun i _ => ?_⟩, length_tour_pos⟩
    · rw [spelled_add]
      exact reduces_sequence htour q
    · exact hpointer.trans ht.pointer_eq.symm
    · rw [ht.cell_eq, hcells, UInt8.one_mul]
  · cases hspread : spread 1 s.tape [(offset, amount)] with
    | ok u =>
        -- unlike a product, an amount that is not zero is not zero modulo 256
        obtain ⟨e, he, hne⟩ := hblocked
        rw [List.mem_singleton.1 he] at hne
        exact absurd (accessible_of_spread hs hspread) hne
    | error eu =>
        obtain ⟨e, u⟩ := eu
        obtain ⟨x, rfl⟩ := overflow_of_spread hnonneg hspread
        refine Fails.spelledAs ?_ rfl
        rw [spelled_add]
        exact (stumbles_tour_overflow x hnonneg hblocked hs hhere).fails q

/-- What stops a tour of the first round stops the loop of a multiplication. -/
theorem fails_multiply {factors : Factors} {e : TapeFault} (hs : s.tape.InWord)
    (hnonzero : s.tape.current ≠ 0)
    (htour : ∀ t : State σ, t.tape.InWord → (t.tape.pointer : Int) = s.tape.pointer + 0 →
      Stumbles D (tourOps 0 factors.entries) t e) (q : Program) :
    Fails D ((Op.multiply factors).spelled q) s e :=
  ((stumbles_round hs hnonzero htour).fails .done).loop hnonzero q

/-- The loop of a multiplication overflows where an entry cannot be visited, also if the product
there is zero. -/
theorem overflows_multiply {factors : Factors} (x : Overflow) (hs : s.tape.InWord)
    (hnonzero : s.tape.current ≠ 0)
    (hnonneg : ∀ e ∈ factors.entries, 0 ≤ (s.tape.pointer : Int) + e.1)
    (hblocked : ∃ e ∈ factors.entries, ¬ Accessible s.tape.pointer e) (q : Program) :
    Fails D ((Op.multiply factors).spelled q) s (.overflow x) := by
  apply fails_multiply hs hnonzero
  intro t ht hpointer
  exact stumbles_tour_overflow x hnonneg hblocked ht hpointer

theorem spelledAs_multiply {factors : Factors} (hs : s.tape.InWord)
    (hspares : factors.get? 0 = none) (hprint : tourOverflow? 0 factors.entries = none)
    (q : Program) :
    SpelledAs D (.multiply factors) s q (exec D (.multiply factors) s) := by
  have hsorted := factors.ascending
  by_cases hzero : s.tape.current = 0
  · rw [exec_multiply_of_zero hzero]
    exact Or.inl ⟨1, s, reduces_loop_left hzero _ q, .refl s, fun _ => Nat.one_pos⟩
  rcases access_cases s.tape.pointer factors.entries with hneg | haccess | ⟨hnonneg, hblocked⟩
  · obtain ⟨i, k, hspread⟩ := spread_of_neg s.tape.current hsorted
      (neg_greatest_le_of_tour hsorted hprint) hneg
    rw [exec_multiply_of_error hzero hspread]
    refine Fails.spelledAs (fails_multiply hs hzero (fun t ht hpointer => ?_) q) rfl
    exact stumbles_tour_underflow hsorted hneg ht.pointer_le hpointer i k
  · -- every round adds the shares once, the multiplication adds them all at once
    obtain ⟨u, hspread, hpointer, hcells⟩ :=
      spread_of_accessible hs hsorted haccess s.tape.current
    obtain ⟨j, t, hreduces, hstreams, hpointer', hcells'⟩ :=
      reduces_rounds (D := D) _ hsorted hspares q _ rfl hs haccess
    rw [exec_multiply_of_ok hzero hspread]
    refine Or.inl ⟨1 + j, t, hreduces, ⟨hstreams.symm, ?_, fun i _ => ?_⟩, fun _ => by omega⟩
    · rw [Tape.pointer_put, hpointer, hpointer']
    · rw [Tape.cell_put, hcells', hcells, hpointer]
  · have hoverflow : ∀ x, Fails D ((Op.multiply factors).spelled q) s (.overflow x) := fun x =>
      overflows_multiply x hs hzero hnonneg hblocked q
    cases hspread : spread s.tape.current s.tape factors.entries with
    | error eu =>
        obtain ⟨e, u⟩ := eu
        obtain ⟨x, rfl⟩ := overflow_of_spread hnonneg hspread
        rw [exec_multiply_of_error hzero hspread]
        exact Fails.spelledAs (hoverflow x) rfl
    | ok u =>
        -- the product is zero where the factor is not, in the last cell of the word
        rw [exec_multiply_of_ok hzero hspread]
        refine Or.inr ⟨⟨hzero, ?_⟩, hoverflow _⟩
        obtain ⟨e, he, hne⟩ := hblocked
        refine ⟨e.1, List.mem_map_of_mem he, ?_⟩
        by_contra hlt
        exact hne ⟨hnonneg e he, by omega, fun _ => Int.not_le.1 hlt⟩

theorem spelledAs_setZero (hs : s.tape.InWord) (q : Program) :
    SpelledAs D .setZero s q (exec D .setZero s) := by
  obtain ⟨j, t, hreduces, hstreams, hpointer, hcells⟩ := reduces_rounds (D := D) []
    List.Pairwise.nil rfl q _ rfl hs (fun e he => by cases he)
  rw [exec_setZero]
  refine Or.inl ⟨1 + j, t, hreduces, ⟨hstreams.symm, ?_, fun i _ => ?_⟩, fun _ => by omega⟩
  · rw [Tape.pointer_put, hpointer]
  · -- nothing is added to the other cells
    rw [Tape.cell_put, hcells, share, List.lookup_nil, Option.getD_none,
      show (0 : Int8).toUInt8 = 0 from rfl, UInt8.mul_zero, UInt8.add_zero]

/-- An operation that has a character of its own. -/
theorem spelledAs_self {o : Op} {q : Program} (h : o.spelled q = .op o q) :
    SpelledAs D o s q (exec D o s) := by
  cases hexec : exec D o s with
  | next t =>
      refine Or.inl ⟨1, t, ?_, .refl t, fun _ => Nat.one_pos⟩
      rw [h]
      exact reduces_op hexec q
  | failed fault t =>
      refine ⟨1, fault, t, ?_, Fault.Alike.refl fault, rfl⟩
      rw [h]
      exact .op_failed hexec

/-- The spelling of an operation does what the operation does. -/
theorem spelledAs_exec {o : Op} (hspares : o.sparesCurrent = true)
    (hprint : o.printOverflow? = none) (hs : s.tape.InWord) (q : Program) :
    SpelledAs D o s q (exec D o s) := by
  cases o with
  | shift amount => exact spelledAs_shift hs hprint q
  | add amount offset => exact spelledAs_add hs hprint q
  | input => exact spelledAs_self rfl
  | output => exact spelledAs_self rfl
  | setZero => exact spelledAs_setZero hs q
  | multiply factors => exact spelledAs_multiply hs (Option.isNone_iff_eq_none.1 hspares) hprint q

end Operations

end Machine

end TapeLang
