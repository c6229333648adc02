import TapeLang.Proofs.FailedOperations

/-!
# Histories of a tape

A tape stands for a row of zeros without end, a byte of which is read or set at an offset from a
pointer that can be moved. This is said about whole histories of a new tape: what was asked of it,
in any order, and what it answered. How far the pointer has been moved (`moved`) and which bytes
have been set where (`stores`) are read off the history alone, from the answers that were not
failures.

After every history the pointer is where the moves have led, each cell holds the byte that was set
there last, and the stored cells end with the highest one that was ever set to a byte other than
zero. `Records` is this invariant. Every access keeps it (`Records.perform`), so it holds after all
of them (`records_replay`), and what the next access answers follows from it
(`tape_refines_array`).
-/

set_option autoImplicit false

namespace TapeLang.Tape

/-! ## Accesses and histories -/

/-- What is asked of a tape, at an offset from its pointer. -/
inductive Access where
  | get (offset : Int)
  | set (offset : Int) (v : UInt8)
  | shift (amount : Int)
  deriving DecidableEq, Repr

/-- The offset of the cell that is read, set or moved to. -/
def Access.offset : Access → Int
  | .get offset => offset
  | .set offset _ => offset
  | .shift amount => amount

/-- The answer to an access, with the byte that was read, and the tape after it. -/
def perform (t : Tape) : Access → Except TapeFault (Option UInt8) × Tape
  | .get offset =>
      match t.get offset with
      | .ok v => (.ok (some v), t)
      | .error e => (.error e, t)
  | .set offset v =>
      match t.set offset v with
      | .ok u => (.ok none, u)
      | .error e => (.error e, t)
  | .shift amount =>
      match t.shift amount with
      | .ok u => (.ok none, u)
      | .error e => (.error e, t)

/-- An access and the answer to it. -/
structure Entry where
  access : Access
  answer : Except TapeFault (Option UInt8)

/-- A tape and its history, the latest entry first. -/
structure Replay where
  tape : Tape
  log : List Entry

/-- One more access. -/
def Replay.next (r : Replay) (a : Access) : Replay :=
  ⟨(r.tape.perform a).2, ⟨a, (r.tape.perform a).1⟩ :: r.log⟩

/-- A new tape after some accesses. -/
def replay (accesses : List Access) : Replay := accesses.foldl Replay.next ⟨empty, []⟩

/-- The sum of the successful shifts of a history. -/
def moved : List Entry → Int
  | [] => 0
  | ⟨.shift amount, .ok _⟩ :: before => moved before + amount
  | _ :: before => moved before

/-- The cells that have been set successfully, each with its byte, the latest first. -/
def stores : List Entry → List (Int × UInt8)
  | [] => []
  | ⟨.set offset v, .ok _⟩ :: before => (moved before + offset, v) :: stores before
  | _ :: before => stores before

/-- The byte that was set last in a cell, zero if there is none. -/
def lastByte (log : List Entry) (i : Int) : UInt8 := ((stores log).lookup i).getD 0

/-- One more than the highest cell that was ever set to a byte other than zero, zero if there is
none. -/
def extent (log : List Entry) : Int :=
  ((((stores log).filter fun e => e.2 ≠ 0).map (·.1)).max?.map (· + 1)).getD 0

/-! ## One access -/

section Perform

variable {t : Tape} {a : Access} {i : Nat} {e : TapeFault}

theorem perform_of_index_error (h : t.index a.offset = .error e) : t.perform a = (.error e, t) := by
  cases a with
  | get offset =>
      rw [Access.offset] at h
      simp only [perform, get, h]
  | set offset v =>
      rw [Access.offset] at h
      simp only [perform, set, revise_of_index_error h]
  | shift amount =>
      rw [Access.offset] at h
      simp only [perform, shift, h]

theorem perform_get_of_ok {offset : Int} (h : t.index offset = .ok i) :
    t.perform (.get offset) = (.ok (some (t.cell i)), t) := by
  simp only [perform, get, h]

theorem perform_shift_of_ok {amount : Int} (h : t.index amount = .ok i) :
    t.perform (.shift amount) = (.ok none, { t with pointer := i }) := by
  simp only [perform, shift, h]

/-- A byte is set where the tape has room for it. -/
theorem perform_set_of_ok {offset : Int} (v : UInt8) (h : t.index offset = .ok i) :
    t.perform (.set offset v) =
      if hasRoom i v then (.ok none, t.put i v) else (.error (.overflow .capacity), t) := by
  simp only [perform, set, revise, h]
  by_cases hroom : hasRoom i v = true
  · simp only [hroom, if_true]
  · simp only [hroom, Bool.false_eq_true, if_false]

/-- An access that fails, though not for an overflow, leads left of cell zero. It leaves the tape as
it was. -/
theorem perform_eq_error (hword : ∀ x, (t.perform a).1 ≠ .error (.overflow x))
    (h : (t.perform a).1 = .error e) :
    e = .underflow t.pointer a.offset ∧ (t.pointer : Int) + a.offset < 0 ∧
      (t.perform a).2 = t := by
  cases hindex : t.index a.offset with
  | error e' =>
      rw [perform_of_index_error hindex] at h hword ⊢
      cases h
      cases e with
      | underflow pointer k =>
          obtain ⟨rfl, rfl, hneg, -⟩ := index_eq_underflow_iff.1 hindex
          exact ⟨rfl, hneg, rfl⟩
      | overflow x => exact absurd rfl (hword x)
  | ok i =>
      -- the cell exists, and all that can be missing is room for the byte
      exfalso
      cases a with
      | get offset =>
          rw [Access.offset] at hindex
          rw [perform_get_of_ok hindex] at h
          cases h
      | shift amount =>
          rw [Access.offset] at hindex
          rw [perform_shift_of_ok hindex] at h
          cases h
      | set offset v =>
          rw [Access.offset] at hindex
          rw [perform_set_of_ok v hindex] at h hword
          split at h
          · cases h
          next hroom =>
            rw [if_neg hroom] at hword
            exact hword _ rfl

end Perform

/-! ## The invariant -/

/-- The tape is what its history says. -/
structure Records (log : List Entry) (t : Tape) : Prop where
  pointer_eq : (t.pointer : Int) = moved log
  cell_eq : ∀ i : Nat, t.cell i = lastByte log i
  size_eq : (t.cells.size : Int) = extent log

namespace Records

variable {log : List Entry} {t : Tape}

theorem start : Records [] empty := ⟨rfl, fun _ => rfl, rfl⟩

/-- A failure is no part of what a history says. -/
theorem failed (h : Records log t) (a : Access) (e : TapeFault) :
    Records (⟨a, .error e⟩ :: log) t := by
  cases a <;> exact ⟨h.pointer_eq, h.cell_eq, h.size_eq⟩

theorem get (h : Records log t) (offset : Int) (v : Option UInt8) :
    Records (⟨.get offset, .ok v⟩ :: log) t :=
  ⟨h.pointer_eq, h.cell_eq, h.size_eq⟩

theorem shift (h : Records log t) {amount : Int} {i : Nat} (hi : t.index amount = .ok i)
    (v : Option UInt8) : Records (⟨.shift amount, .ok v⟩ :: log) { t with pointer := i } := by
  refine ⟨?_, h.cell_eq, h.size_eq⟩
  obtain ⟨hposition, -⟩ := (index_eq_ok_iff _ _ _).1 hi
  rw [moved, ← h.pointer_eq]
  exact hposition

theorem set (h : Records log t) {offset : Int} {i : Nat} (hi : t.index offset = .ok i) (v : UInt8)
    (answer : Option UInt8) : Records (⟨.set offset v, .ok answer⟩ :: log) (t.put i v) := by
  obtain ⟨hposition, -⟩ := (index_eq_ok_iff _ _ _).1 hi
  rw [h.pointer_eq] at hposition
  refine ⟨?_, ?_, ?_⟩
  · rw [pointer_put]
    exact h.pointer_eq
  · intro j
    rw [cell_put, lastByte, stores, ← hposition, List.lookup_cons]
    by_cases hj : j = i
    · subst hj
      simp
    · have hne : ((j : Int) == i) = false := by
        rw [beq_eq_false_iff_ne]
        omega
      rw [if_neg hj, hne, h.cell_eq j]
      rfl
  · rw [size_put, extent, stores, ← hposition]
    by_cases hv : v = 0
    · -- a zero is stored in no cell that is not stored already
      rw [if_pos hv, List.filter_cons_of_neg (by simpa using hv)]
      exact h.size_eq
    · rw [if_neg hv, List.filter_cons_of_pos (by simpa using hv), List.map_cons, List.max?_cons]
      have hsize := h.size_eq
      rw [extent] at hsize
      cases hmax : (((stores log).filter fun e => e.2 ≠ 0).map (·.1)).max? with
      | none =>
          rw [hmax] at hsize
          simp only [Option.map_none, Option.getD_none] at hsize
          simp only [Option.elim_none, Option.map_some, Option.getD_some]
          omega
      | some highest =>
          rw [hmax] at hsize
          simp only [Option.map_some, Option.getD_some] at hsize
          simp only [Option.elim_some, Option.map_some, Option.getD_some]
          omega

/-- Every access keeps the tape to its history. -/
theorem perform (h : Records log t) (a : Access) :
    Records (⟨a, (t.perform a).1⟩ :: log) (t.perform a).2 := by
  cases hindex : t.index a.offset with
  | error e =>
      rw [perform_of_index_error hindex]
      exact h.failed a e
  | ok i =>
      cases a with
      | get offset =>
          rw [Access.offset] at hindex
          rw [perform_get_of_ok hindex]
          exact h.get offset _
      | shift amount =>
          rw [Access.offset] at hindex
          rw [perform_shift_of_ok hindex]
          exact h.shift hindex _
      | set offset v =>
          rw [Access.offset] at hindex
          rw [perform_set_of_ok v hindex]
          split
          · exact h.set hindex v _
          · exact h.failed _ _

theorem fails_iff (h : Records log t) {a : Access}
    (hword : ∀ x, (t.perform a).1 ≠ .error (.overflow x)) :
    (∃ e, (t.perform a).1 = .error e) ↔ moved log + a.offset < 0 := by
  rw [← h.pointer_eq]
  constructor
  · rintro ⟨e, he⟩
    exact (perform_eq_error hword he).2.1
  · intro hneg
    cases hindex : t.index a.offset with
    | error e => exact ⟨e, by rw [perform_of_index_error hindex]⟩
    | ok i =>
        obtain ⟨hposition, -⟩ := (index_eq_ok_iff _ _ _).1 hindex
        omega

/-- A read that does not fail finds the byte that was set last. -/
theorem perform_get (h : Records log t) {offset : Int}
    (hword : ∀ x, (t.perform (.get offset)).1 ≠ .error (.overflow x))
    (hnonneg : 0 ≤ moved log + offset) :
    t.perform (.get offset) = (.ok (some (lastByte log (moved log + offset))), t) := by
  cases hindex : t.index offset with
  | error e =>
      have hfails := (h.fails_iff hword).1 ⟨e, by rw [perform_of_index_error hindex]⟩
      exact absurd hnonneg (Int.not_le.2 hfails)
  | ok i =>
      obtain ⟨hposition, -⟩ := (index_eq_ok_iff _ _ _).1 hindex
      rw [h.pointer_eq] at hposition
      rw [perform_get_of_ok hindex, h.cell_eq i, hposition]

end Records

/-- After any accesses a new tape is what its history says, by induction on the accesses. -/
theorem records_replay (accesses : List Access) :
    Records (replay accesses).log (replay accesses).tape := by
  induction accesses using List.reverseRecOn with
  | nil => exact .start
  | append_singleton accesses a ih =>
      have hnext : replay (accesses ++ [a]) = (replay accesses).next a := by
        rw [replay, List.foldl_concat, replay]
      rw [hnext]
      exact ih.perform a

/-- A tape is a row of zero bytes without end and a pointer. After any accesses to a new tape the
pointer is the sum of the shifts that succeeded, and the number of stored cells is one more than the
highest cell that was ever set to a byte other than zero. The next access, unless it overflows,
fails exactly if it leads left of cell zero; it then reports this and changes nothing. A read that
does not fail returns the byte that was set last in its cell, or zero. -/
theorem tape_refines_array (accesses : List Access) :
    ((replay accesses).tape.pointer : Int) = moved (replay accesses).log ∧
    ((replay accesses).tape.cells.size : Int) = extent (replay accesses).log ∧
    ∀ a : Access, (∀ e, ((replay accesses).tape.perform a).1 ≠ .error (.overflow e)) →
      ((∃ e, ((replay accesses).tape.perform a).1 = .error e) ↔
        moved (replay accesses).log + a.offset < 0) ∧
      (∀ e, ((replay accesses).tape.perform a).1 = .error e →
        e = .underflow (replay accesses).tape.pointer a.offset ∧
          ((replay accesses).tape.perform a).2 = (replay accesses).tape) ∧
      ∀ offset, a = .get offset → 0 ≤ moved (replay accesses).log + offset →
        (replay accesses).tape.perform a =
          (.ok (some (lastByte (replay accesses).log (moved (replay accesses).log + offset))),
            (replay accesses).tape) := by
  have hrecords := records_replay accesses
  refine ⟨hrecords.pointer_eq, hrecords.size_eq, ?_⟩
  intro a hword
  refine ⟨hrecords.fails_iff hword, ?_, ?_⟩
  · intro e he
    obtain ⟨hfault, -, htape⟩ := perform_eq_error hword he
    exact ⟨hfault, htape⟩
  · rintro offset rfl hnonneg
    exact hrecords.perform_get hword hnonneg

/-- A byte is set and replaced from another place. A move that leads left of cell zero and a zero
beyond the last stored cell change nothing. -/
def wandering : List Access :=
  [.set 2 7, .shift 1, .set 1 9, .shift (-5), .set (-1) 4, .set 8 0]

/-- The cell that was set twice holds the second byte, and one move too many is refused. -/
theorem tape_refines_array_wandering :
    moved (replay wandering).log = 1 ∧ (replay wandering).tape = ⟨#[4, 0, 9], 1⟩ ∧
      extent (replay wandering).log = 3 ∧
      ((replay wandering).tape.perform (.get 1)).1 = .ok (some 9) ∧
      lastByte (replay wandering).log (1 + 1) = 9 ∧
      ∃ e, ((replay wandering).tape.perform (.shift (-2))).1 = .error e := by
  obtain ⟨hpointer, hsize, hnext⟩ := tape_refines_array wandering
  have htape : (replay wandering).tape = ⟨#[4, 0, 9], 1⟩ := rfl
  have hmoved : moved (replay wandering).log = 1 := by
    rw [← hpointer, htape]
    rfl
  have hread : ∀ x, ((replay wandering).tape.perform (.get 1)).1 ≠ .error (.overflow x) := by
    intro x h
    rw [htape] at h
    cases h
  have hmove : ∀ x, ((replay wandering).tape.perform (.shift (-2))).1 ≠ .error (.overflow x) := by
    intro x h
    rw [htape] at h
    cases h
  obtain ⟨-, -, hbyte⟩ := hnext (.get 1) hread
  obtain ⟨hfails, -, -⟩ := hnext (.shift (-2)) hmove
  have hlast : lastByte (replay wandering).log (1 + 1) = 9 := rfl
  refine ⟨hmoved, htape, by rw [← hsize, htape]; rfl, ?_, hlast, hfails.2 ?_⟩
  · rw [hbyte 1 rfl (by rw [hmoved]; decide), hmoved, hlast]
  · rw [hmoved]
    decide

end TapeLang.Tape
