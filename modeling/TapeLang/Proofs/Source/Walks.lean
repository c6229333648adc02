import TapeLang.Proofs.FactorTables
import TapeLang.Proofs.Source.Spelling
import TapeLang.Proofs.WordTapes

/-!
# Walks over the tape

What a text is spelled with moves by one cell and changes the current cell by one. A row of moves
ends where one long move ends, and if that is no place of the tape the row stops at the edge that it
has to cross, with a fault of the same kind (`execs_moves`, `stumbles_moves`). A row of increments
adds what one addition adds, if there is room for a byte; otherwise already the first one fails.

A tour over the entries of a table is made of such rows. It adds to each cell what the table says
and comes back, if every entry is accessible (`execs_tour`). If some entry is not, the tour fails.
Its fault is an underflow if the first entry lies left of cell zero (`stumbles_tour_underflow`), and
an overflow if no entry does (`stumbles_tour_overflow`).
-/

set_option autoImplicit false

namespace TapeLang

namespace TapeFault

/-- Both are underflows, or both are overflows. -/
def Alike : TapeFault → TapeFault → Prop
  | .underflow _ _, .underflow _ _ => True
  | .overflow _, .overflow _ => True
  | _, _ => False

/-- A fault of the kind that a position gives: left of cell zero, or beyond the word. -/
def At (position : Int) : TapeFault → Prop
  | .underflow _ _ => position < 0
  | .overflow _ => Word.greatest < position

end TapeFault

/-- An offset leads to a cell, or to a fault that its position explains. -/
theorem Tape.index_cases (t : Tape) {offset : Int} (h : Word.least ≤ t.pointer + offset) :
    (∃ i : Nat, t.index offset = .ok i ∧ (i : Int) = t.pointer + offset ∧
        (i : Int) ≤ Word.greatest) ∨
      ∃ e, t.index offset = .error e ∧ e.At (t.pointer + offset) := by
  rw [index]
  by_cases hle : (t.pointer : Int) + offset ≤ Word.greatest
  · have hfits : Word.fits (t.pointer + offset) = true := (Word.fits_iff _).2 ⟨h, hle⟩
    by_cases hneg : (t.pointer : Int) + offset < 0
    · refine Or.inr ⟨.underflow t.pointer offset, ?_, hneg⟩
      simp only [hfits, if_true, hneg]
    · refine Or.inl ⟨(t.pointer + offset).toNat, ?_, by omega, by omega⟩
      simp only [hfits, if_true, hneg, if_false]
  · have hfits : ¬ Word.fits (t.pointer + offset) = true := fun hfits =>
      hle ((Word.fits_iff _).1 hfits).2
    refine Or.inr ⟨.overflow .addition, ?_, Int.not_le.1 hle⟩
    simp only [hfits, Bool.false_eq_true, if_false]

namespace Machine

variable {σ : Type} {D : Device σ}

/-! ## Rows of operations -/

/-- Some operations, one after the other. -/
def execs (D : Device σ) : List Op → State σ → Step σ
  | [], s => .next s
  | o :: ops, s =>
      match exec D o s with
      | .next t => execs D ops t
      | .failed fault t => .failed fault t

/-- The operations fail with a fault of this kind, before the device has been called. -/
def Stumbles (D : Device σ) (ops : List Op) (s : State σ) (e : TapeFault) : Prop :=
  ∃ e' t, execs D ops s = .failed (.tape e') t ∧ e.Alike e' ∧ t.streams = s.streams

section Rows

variable {o : Op} {ops ops' : List Op} {s t : State σ} {e : TapeFault}

theorem execs_cons_of_next (h : exec D o s = .next t) (ops : List Op) :
    execs D (o :: ops) s = execs D ops t := by
  simp only [execs, h]

theorem execs_cons_of_failed {fault : Fault} (h : exec D o s = .failed fault t) (ops : List Op) :
    execs D (o :: ops) s = .failed fault t := by
  simp only [execs, h]

theorem execs_append (ops ops' : List Op) : ∀ (s : State σ),
    execs D (ops ++ ops') s =
      match execs D ops s with
      | .next t => execs D ops' t
      | .failed fault t => .failed fault t := by
  induction ops with
  | nil => exact fun s => rfl
  | cons o ops ih =>
      intro s
      cases h : exec D o s with
      | next t => rw [List.cons_append, execs_cons_of_next h, execs_cons_of_next h, ih]
      | failed fault t => rw [List.cons_append, execs_cons_of_failed h, execs_cons_of_failed h]

theorem execs_append_of_next (h : execs D ops s = .next t) (ops' : List Op) :
    execs D (ops ++ ops') s = execs D ops' t := by
  rw [execs_append, h]

theorem Stumbles.of_exec {e' : TapeFault} (h : exec D o s = .failed (.tape e') s)
    (halike : e.Alike e') (ops : List Op) : Stumbles D (o :: ops) s e :=
  ⟨e', s, execs_cons_of_failed h ops, halike, rfl⟩

theorem Stumbles.append (h : Stumbles D ops s e) (ops' : List Op) :
    Stumbles D (ops ++ ops') s e := by
  obtain ⟨e', t, hexecs, hrest⟩ := h
  exact ⟨e', t, by rw [execs_append, hexecs], hrest⟩

/-- What fails after some operations fails with them before it. -/
theorem Stumbles.after (h : Stumbles D ops' t e) (hexecs : execs D ops s = .next t)
    (hstreams : t.streams = s.streams) : Stumbles D (ops ++ ops') s e := by
  obtain ⟨e', u, hexecs', halike, hstreams'⟩ := h
  exact ⟨e', u, (execs_append_of_next hexecs ops').trans hexecs', halike, hstreams'.trans hstreams⟩

end Rows

/-! ## Moves -/

/-- The machine with its pointer elsewhere. -/
def State.moved (s : State σ) (i : Nat) : State σ := { s with tape := { s.tape with pointer := i } }

/-- A move gets to its cell, or fails as its position explains. -/
theorem exec_shift_cases {amount : Int} (h : -Word.greatest ≤ amount) (s : State σ) :
    (∃ i : Nat, exec D (.shift amount) s = .next (s.moved i) ∧
        (i : Int) = s.tape.pointer + amount ∧ (i : Int) ≤ Word.greatest) ∨
      ∃ e, exec D (.shift amount) s = .failed (.tape e) s ∧ e.At (s.tape.pointer + amount) := by
  have hleast : Word.least ≤ s.tape.pointer + amount := by
    rw [Word.greatest] at h
    rw [Word.least]
    omega
  rcases s.tape.index_cases hleast with ⟨i, hindex, hi⟩ | ⟨e, hindex, hat⟩
  · exact Or.inl ⟨i, exec_shift_of_ok hindex, hi⟩
  · exact Or.inr ⟨e, exec_shift_of_error hindex, hat⟩

/-- A move by one cell, in either direction, or by none. -/
theorem neg_greatest_le_sign {sign : Int} (h : sign = 1 ∨ sign = 0 ∨ sign = -1) :
    -Word.greatest ≤ sign := by
  rw [Word.greatest]
  omega

theorem natCast_succ_mul (n : Nat) (sign : Int) :
    ((n + 1 : Nat) : Int) * sign = sign + n * sign := by
  rw [Int.natCast_succ, Int.add_mul, Int.one_mul, Int.add_comm]

theorem execs_shifts {sign : Int} (hsign : sign = 1 ∨ sign = 0 ∨ sign = -1) :
    ∀ (n : Nat) {s : State σ} {i : Nat}, (s.tape.pointer : Int) ≤ Word.greatest →
      (i : Int) ≤ Word.greatest → (i : Int) = s.tape.pointer + n * sign →
        execs D (List.replicate n (.shift sign)) s = .next (s.moved i) := by
  intro n
  induction n with
  | zero =>
      intro s i _ _ hi
      obtain rfl : i = s.tape.pointer := by omega
      rfl
  | succ n ih =>
      intro s i hpointer hle hi
      rw [natCast_succ_mul] at hi
      rcases exec_shift_cases (D := D) (neg_greatest_le_sign hsign) s with
        ⟨j, hexec, hj, hjle⟩ | ⟨e, -, hat⟩
      · rw [List.replicate_succ, execs_cons_of_next hexec]
        have hi' : (i : Int) = j + n * sign := by omega
        exact ih hjle hle hi'
      · -- the first move stays between the two ends, which are places of the tape
        have hbetween : ¬ e.At (s.tape.pointer + sign) := by
          cases e <;> rcases hsign with rfl | rfl | rfl <;> simp only [TapeFault.At] <;> omega
        exact absurd hat hbetween

/-- A row of moves ends where one move by the whole distance ends. -/
theorem execs_moves {s : State σ} (i : Nat) (distance : Int)
    (hpointer : (s.tape.pointer : Int) ≤ Word.greatest) (hle : (i : Int) ≤ Word.greatest)
    (hi : (i : Int) = s.tape.pointer + distance) :
    execs D (moveOps distance) s = .next (s.moved i) := by
  apply execs_shifts (Int.sign_trichotomy distance) _ hpointer hle
  rw [Int.mul_comm, Int.sign_mul_natAbs]
  exact hi

theorem stumbles_shifts {sign : Int} (hsign : sign = 1 ∨ sign = 0 ∨ sign = -1) {e : TapeFault} :
    ∀ (n : Nat) {s : State σ}, (s.tape.pointer : Int) ≤ Word.greatest →
      e.At (s.tape.pointer + n * sign) → Stumbles D (List.replicate n (.shift sign)) s e := by
  intro n
  induction n with
  | zero =>
      intro s hpointer hat
      cases e <;> simp only [TapeFault.At] at hat <;> omega
  | succ n ih =>
      intro s hpointer hat
      rw [natCast_succ_mul, ← Int.add_assoc] at hat
      rcases exec_shift_cases (D := D) (neg_greatest_le_sign hsign) s with
        ⟨j, hexec, hj, hjle⟩ | ⟨e', hexec, hat'⟩
      · rw [List.replicate_succ]
        refine Stumbles.after (ih hjle ?_) (execs_cons_of_next hexec []) rfl
        rwa [← hj] at hat
      · -- both faults are at the edge that the row has to cross
        refine .of_exec hexec ?_ _
        cases e <;> cases e' <;> simp only [TapeFault.At, TapeFault.Alike] at hat hat' ⊢ <;>
          rcases hsign with rfl | rfl | rfl <;> omega

/-- A row of moves to a position outside the tape fails as its position explains. -/
theorem stumbles_moves {s : State σ} {distance : Int} {e : TapeFault}
    (hpointer : (s.tape.pointer : Int) ≤ Word.greatest) (hat : e.At (s.tape.pointer + distance)) :
    Stumbles D (moveOps distance) s e := by
  apply stumbles_shifts (Int.sign_trichotomy distance) _ hpointer
  rwa [Int.mul_comm, Int.sign_mul_natAbs]

/-! ## Increments -/

/-- The pointer has got to `i`, and `f` has been added to the cells. -/
structure Walked (i : Nat) (f : Nat → UInt8) (s t : State σ) : Prop where
  streams_eq : t.streams = s.streams
  pointer_eq : t.tape.pointer = i
  cell_eq : ∀ j, t.tape.cell j = s.tape.cell j + f j
  inWord : t.tape.InWord

theorem index_zero {t : Tape} (h : (t.pointer : Int) ≤ Word.greatest) :
    t.index 0 = .ok t.pointer := by
  apply (Tape.index_eq_ok_iff _ _ _).2
  rw [Int.add_zero, Word.fits_iff, Word.least]
  exact ⟨rfl, by omega, h⟩

theorem exec_add_here {s : State σ} {amount : Int8}
    (hroom : Tape.hasRoom s.tape.pointer (s.tape.current + amount.toUInt8) = true)
    (hpointer : (s.tape.pointer : Int) ≤ Word.greatest) :
    exec D (.add amount 0) s = .next { s with
      tape := s.tape.put s.tape.pointer (s.tape.current + amount.toUInt8) } := by
  apply exec_add_of_ok
  exact (Tape.revise_eq_ok_iff _ _ _ _ _).2 ⟨index_zero hpointer, rfl, hroom⟩

theorem execs_increments (sign : Int8) : ∀ (n : Nat) {s : State σ}, s.tape.InWord →
    (s.tape.pointer : Int) < Word.greatest →
      ∃ t, execs D (List.replicate n (.add sign 0)) s = .next t ∧
        Walked s.tape.pointer
          (fun i => if i = s.tape.pointer then UInt8.ofNat n * sign.toUInt8 else 0) s t := by
  intro n
  induction n with
  | zero =>
      intro s hs _
      refine ⟨s, rfl, rfl, rfl, fun j => ?_, hs⟩
      simp
  | succ n ih =>
      intro s hs hlt
      have hroom := Tape.hasRoom_of_lt hlt (s.tape.current + sign.toUInt8)
      obtain ⟨t, hexecs, ht⟩ := ih
        (s := { s with tape := s.tape.put s.tape.pointer (s.tape.current + sign.toUInt8) })
        (Tape.kept_inWord.put hs hroom) (by rwa [Tape.pointer_put])
      rw [Tape.pointer_put] at ht
      refine ⟨t, ?_, ht.streams_eq, ht.pointer_eq, fun j => ?_, ht.inWord⟩
      · rw [List.replicate_succ, execs_cons_of_next (exec_add_here hroom hs.pointer_le), hexecs]
      · rw [ht.cell_eq, Tape.cell_put]
        by_cases hj : j = s.tape.pointer
        · rw [if_pos hj, if_pos hj, if_pos hj, hj, UInt8.ofNat_add, Tape.current]
          grind
        · rw [if_neg hj, if_neg hj, if_neg hj]

/-- As many units as the size of a signed byte says, with its sign, make up the byte. -/
theorem ofNat_natAbs_mul (amount : Int8) :
    UInt8.ofNat amount.toInt.natAbs * (if amount.toInt < 0 then (-1 : Int8) else 1).toUInt8 =
      amount.toUInt8 := by
  have hnat : amount.toUInt8.toNat = amount.toBitVec.toNat := rfl
  have hint : amount.toInt = amount.toBitVec.toInt := rfl
  have hlt := amount.toBitVec.isLt
  rw [BitVec.toInt_eq_toNat_cond] at hint
  apply UInt8.toNat_inj.1
  split
  next hneg =>
    rw [UInt8.toNat_mul, UInt8.toNat_ofNat', show (-1 : Int8).toUInt8.toNat = 255 from rfl, hnat]
    split at hint <;> omega
  next hpos =>
    rw [UInt8.toNat_mul, UInt8.toNat_ofNat', show (1 : Int8).toUInt8.toNat = 1 from rfl, hnat]
    split at hint <;> omega

theorem natAbs_toInt_ne_zero {amount : Int8} (h : amount ≠ 0) : amount.toInt.natAbs ≠ 0 := by
  intro hsize
  apply h
  rw [← Int8.toInt_inj, Int8.toInt_zero]
  omega

/-- A row of increments adds its amount to the current cell. -/
theorem execs_amount {s : State σ} (amount : Int8) (hs : s.tape.InWord)
    (hroom : amount ≠ 0 → (s.tape.pointer : Int) < Word.greatest) :
    ∃ t, execs D (amountOps amount) s = .next t ∧ Walked s.tape.pointer
      (fun i => if i = s.tape.pointer then amount.toUInt8 else 0) s t := by
  by_cases hamount : amount = 0
  · subst hamount
    refine ⟨s, rfl, rfl, rfl, fun j => ?_, hs⟩
    rw [show (0 : Int8).toUInt8 = 0 from rfl, ite_self, UInt8.add_zero]
  · have hrow := execs_increments (D := D) (if amount.toInt < 0 then -1 else 1)
      amount.toInt.natAbs hs (hroom hamount)
    rwa [ofNat_natAbs_mul] at hrow

/-- Where there is no room for a byte, the first increment fails. -/
theorem stumbles_amount {s : State σ} {amount : Int8} (hs : s.tape.InWord) (hamount : amount ≠ 0)
    (hedge : Word.greatest ≤ s.tape.pointer) (x : Overflow) :
    Stumbles D (amountOps amount) s (.overflow x) := by
  -- the cell is zero, and one more or one less is not
  have hzero : s.tape.cell s.tape.pointer = 0 := hs.cell_eq _ hedge
  obtain ⟨n, hn⟩ := Nat.exists_eq_succ_of_ne_zero (natAbs_toInt_ne_zero hamount)
  have hnoRoom : ∀ v : UInt8, v ≠ 0 → Tape.hasRoom s.tape.pointer v = false := by
    intro v hv
    rw [Tape.hasRoom, decide_eq_false hv, decide_eq_false (by omega), Bool.or_false]
  rw [amountOps, hn, List.replicate_succ]
  have herror : s.tape.revise 0 (· + (if amount.toInt < 0 then (-1 : Int8) else 1).toUInt8) =
      .error (.overflow .capacity) := by
    simp only [Tape.revise, index_zero hs.pointer_le, hzero]
    split
    · rw [hnoRoom _ (by decide), if_neg Bool.false_ne_true]
    · rw [hnoRoom _ (by decide), if_neg Bool.false_ne_true]
  have halike : (TapeFault.overflow x).Alike (.overflow .capacity) := trivial
  exact .of_exec (exec_add_of_error herror) halike _

/-! ## Tours -/

/-- What the entries of a table add to a cell if their offsets count from `base`. -/
def share (entries : List (Int × Int8)) (base i : Nat) : UInt8 :=
  ((entries.lookup ((i : Int) - base)).getD 0).toUInt8

/-- The cell of an entry is a cell of the tape, and has room for a byte if the entry adds to it. -/
def Accessible (base : Nat) (e : Int × Int8) : Prop :=
  0 ≤ base + e.1 ∧ base + e.1 ≤ Word.greatest ∧ (e.2 ≠ 0 → base + e.1 < Word.greatest)

/-- Some entry lies left of cell zero, or all are accessible, or none lies left of cell zero and
some is not accessible. -/
theorem access_cases (base : Nat) (entries : List (Int × Int8)) :
    (∃ e ∈ entries, (base : Int) + e.1 < 0) ∨ (∀ e ∈ entries, Accessible base e) ∨
      (∀ e ∈ entries, 0 ≤ (base : Int) + e.1) ∧ ∃ e ∈ entries, ¬ Accessible base e := by
  by_cases hneg : ∃ e ∈ entries, (base : Int) + e.1 < 0
  · exact Or.inl hneg
  · by_cases haccess : ∀ e ∈ entries, Accessible base e
    · exact Or.inr (Or.inl haccess)
    · refine Or.inr (Or.inr ⟨fun e he => ?_, ?_⟩)
      · exact Int.not_lt.1 fun hlt => hneg ⟨e, he, hlt⟩
      · simpa only [not_forall, exists_prop] using haccess

theorem share_cons {k : Int} {amount : Int8} {rest : List (Int × Int8)}
    (hfirst : ∀ e ∈ rest, k < e.1) {base i : Nat} (hi : (i : Int) = base + k) (j : Nat) :
    share ((k, amount) :: rest) base j =
      (if j = i then amount.toUInt8 else 0) + share rest base j := by
  rw [share, share, List.lookup_cons]
  by_cases hj : j = i
  · -- offsets ascend, so no later entry adds to this cell again
    have hkey : (j : Int) - base = k := by omega
    rw [if_pos hj, hkey, Factors.lookup_eq_none_of_lt hfirst, beq_self_eq_true, Option.getD_none,
      show (0 : Int8).toUInt8 = 0 from rfl, UInt8.add_zero]
    rfl
  · have hkey : ((j : Int) - base == k) = false := by
      simp only [beq_eq_false_iff_ne, ne_eq]
      omega
    rw [if_neg hj, hkey, UInt8.zero_add]

/-- A tour over accessible entries adds to each cell its share and comes back. -/
theorem execs_tour {base : Nat} (hbase : (base : Int) ≤ Word.greatest) :
    ∀ {entries : List (Int × Int8)}, entries.Pairwise (fun a b => a.1 < b.1) →
      (∀ e ∈ entries, Accessible base e) → ∀ {here : Int} {s : State σ}, s.tape.InWord →
        (s.tape.pointer : Int) = base + here →
          ∃ t, execs D (tourOps here entries) s = .next t ∧
            Walked base (share entries base) s t := by
  intro entries
  induction entries with
  | nil =>
      intro _ _ here s hs hhere
      have hback := execs_moves (D := D) base (-here) hs.pointer_le hbase
        (by omega)
      refine ⟨s.moved base, hback, rfl, rfl, fun j => ?_, Tape.kept_inWord.move hs hbase⟩
      rw [share, List.lookup_nil, Option.getD_none, show (0 : Int8).toUInt8 = 0 from rfl,
        UInt8.add_zero]
      rfl
  | cons e rest ih =>
      intro hsorted haccess here s hs hhere
      obtain ⟨k, amount⟩ := e
      obtain ⟨hfirst, hsorted'⟩ := List.pairwise_cons.1 hsorted
      obtain ⟨hnonneg, hle, hroom⟩ := haccess (k, amount) List.mem_cons_self
      obtain ⟨i, hi⟩ := Int.eq_ofNat_of_zero_le hnonneg
      have hile : (i : Int) ≤ Word.greatest := hi ▸ hle
      -- to the cell of the first entry, then its amount, then the tour from there
      have hmove := execs_moves (D := D) i (k - here) hs.pointer_le hile
        (by omega)
      obtain ⟨t, hamount, ht⟩ := execs_amount (D := D) (s := s.moved i) amount
        (Tape.kept_inWord.move hs hile) (fun hne => hi ▸ hroom hne)
      have hk : (t.tape.pointer : Int) = base + k := by
        rw [ht.pointer_eq]
        exact hi.symm
      obtain ⟨u, htour, hu⟩ := ih hsorted' (fun e he => haccess e (List.mem_cons_of_mem _ he))
        ht.inWord hk
      refine ⟨u, ?_, hu.streams_eq.trans ht.streams_eq, hu.pointer_eq, fun j => ?_, hu.inWord⟩
      · rw [tourOps, List.append_assoc, execs_append_of_next hmove, execs_append_of_next hamount,
          htour]
      · rw [hu.cell_eq, ht.cell_eq, share_cons hfirst hi.symm, ← UInt8.add_assoc]
        rfl

/-- A tour whose first entry lies left of cell zero underflows. -/
theorem stumbles_tour_underflow {base : Nat} {entries : List (Int × Int8)}
    (hsorted : entries.Pairwise (fun a b => a.1 < b.1))
    (hneg : ∃ e ∈ entries, (base : Int) + e.1 < 0) {here : Int} {s : State σ}
    (hpointer : (s.tape.pointer : Int) ≤ Word.greatest)
    (hhere : (s.tape.pointer : Int) = base + here) (i : Nat) (k : Int) :
    Stumbles D (tourOps here entries) s (.underflow i k) := by
  obtain ⟨e, he, hneg⟩ := hneg
  cases entries with
  | nil => cases he
  | cons first rest =>
      obtain ⟨offset, amount⟩ := first
      have hleast : offset ≤ e.1 := Factors.head_le_of_mem hsorted he
      have hat : (TapeFault.underflow i k).At (s.tape.pointer + (offset - here)) := by
        show (s.tape.pointer : Int) + (offset - here) < 0
        omega
      rw [tourOps, List.append_assoc]
      exact (stumbles_moves hpointer hat).append _

/-- A tour with no entry left of cell zero overflows if one of its entries is not accessible. -/
theorem stumbles_tour_overflow {base : Nat} (x : Overflow) :
    ∀ {entries : List (Int × Int8)}, (∀ e ∈ entries, 0 ≤ (base : Int) + e.1) →
      (∃ e ∈ entries, ¬ Accessible base e) → ∀ {here : Int} {s : State σ}, s.tape.InWord →
        (s.tape.pointer : Int) = base + here →
          Stumbles D (tourOps here entries) s (.overflow x) := by
  intro entries
  induction entries with
  | nil =>
      rintro _ ⟨e, he, -⟩
      cases he
  | cons e rest ih =>
      intro hnonneg hblocked here s hs hhere
      obtain ⟨k, amount⟩ := e
      have hk : 0 ≤ (base : Int) + k := hnonneg (k, amount) List.mem_cons_self
      rw [tourOps, List.append_assoc]
      by_cases hle : (base : Int) + k ≤ Word.greatest
      · obtain ⟨i, hi⟩ := Int.eq_ofNat_of_zero_le hk
        have hile : (i : Int) ≤ Word.greatest := hi ▸ hle
        have hmove := execs_moves (D := D) i (k - here) hs.pointer_le hile
          (by omega)
        have hs' : (s.moved i).tape.InWord := Tape.kept_inWord.move hs hile
        refine Stumbles.after ?_ hmove rfl
        by_cases hroom : amount ≠ 0 → (i : Int) < Word.greatest
        · -- the first entry is accessible, so the blocked one is among the others
          obtain ⟨t, hamount, ht⟩ := execs_amount (D := D) amount hs' hroom
          refine Stumbles.after ?_ hamount ht.streams_eq
          refine ih (fun e he => hnonneg e (List.mem_cons_of_mem _ he)) ?_ ht.inWord
            (by rw [ht.pointer_eq]; exact hi.symm)
          obtain ⟨e, he, hne⟩ := hblocked
          rcases List.mem_cons.1 he with rfl | he
          · exact absurd ⟨hk, hle, fun ha => hi ▸ hroom ha⟩ hne
          · exact ⟨e, he, hne⟩
        · obtain ⟨hamount, hedge⟩ := Classical.not_imp.1 hroom
          exact (stumbles_amount hs' hamount (Int.not_lt.1 hedge) x).append _
      · have hat : (TapeFault.overflow x).At (s.tape.pointer + (k - here)) := by
          show Word.greatest < (s.tape.pointer : Int) + (k - here)
          omega
        exact (stumbles_moves hs.pointer_le hat).append _

end Machine

end TapeLang
