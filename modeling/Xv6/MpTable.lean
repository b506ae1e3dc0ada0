/-
# The multiprocessor table

The loop of `mpinit` (`mp.c`) over the entries of the configuration table, whatever firmware has put there.
The `for` has no increment: the cases of the `switch` advance `p`, and `default` does not, as its `break`
leaves the `switch` only.  So the loop stays at an entry of unknown type for ever (`loop_eq_none`), and the
panic behind it is not reached.  Without such an entry it ends, as every turn advances `p`.
-/
import Xv6.LittleEndian

namespace MpTable

/-- The bytes of the table, from its header on. -/
abbrev Table := ℕ → UInt8

abbrev NCPU : ℕ := 8

/-! ## Table entry types -/

abbrev MPPROC : UInt8 := 0
abbrev MPBUS : UInt8 := 1
abbrev MPIOAPIC : UInt8 := 2
abbrev MPIOINTR : UInt8 := 3
abbrev MPLINTR : UInt8 := 4

/-! ## The program -/

/-- `conf->length`. -/
def Table.length (t : Table) : ℕ := leValue 2 fun k => t (4 + k)

def sum (t : Table) (len : ℕ) : UInt8 := (List.range len).foldl (fun s i => s + t i) 0

/-- The checks of `mpconfig`: the signature `PCMP`, the version and the checksum. -/
def mpconfig (t : Table) : Bool :=
  (List.range 4).map t = [80, 67, 77, 80] ∧ (t 6 = 1 ∨ t 6 = 4) ∧ sum t t.length = 0

/-- The variables of `mpinit`; `cpus` has the `apicid` of the first `ncpu` processors. -/
structure Mp where
  p : ℕ
  ismp : Bool
  lapic : ℕ
  cpus : List UInt8
  ioapicid : UInt8
deriving DecidableEq

/-- Before the loop, with `p` behind the header. -/
def start (t : Table) : Mp := ⟨44, true, leValue 4 fun k => t (36 + k), [], 0⟩

/-- The `switch`. -/
def turn (t : Table) (s : Mp) : Mp :=
  if t s.p = MPPROC then
    { s with
      cpus := if s.cpus.length < NCPU then s.cpus ++ [t (s.p + 1)] else s.cpus
      p := s.p + 20 }
  else if t s.p = MPIOAPIC then { s with ioapicid := t (s.p + 1), p := s.p + 8 }
  else if t s.p = MPBUS ∨ t s.p = MPIOINTR ∨ t s.p = MPLINTR then { s with p := s.p + 8 }
  -- `break` ends the `switch`, not the loop
  else { s with ismp := false }

/-- The loop; `none` if it has not ended after `fuel` turns. -/
def loop (t : Table) : ℕ → Mp → Option Mp
  | 0, _ => none
  | fuel + 1, s => if s.p < t.length then loop t fuel (turn t s) else some s

/-- `mpinit` up to the panics; what follows concerns the interrupt mode only. -/
def mpinit (fuel : ℕ) (t : Table) : Option (Except String Mp) :=
  if mpconfig t then
    (loop t fuel (start t)).map fun s =>
      if s.ismp then .ok s else .error "Didn't find a suitable machine"
  else some (.error "Expect to run on an SMP")

/-! ## The entries -/

/-- The types that `mpinit` knows. -/
def Known (type : UInt8) : Prop :=
  type = MPPROC ∨ type = MPIOAPIC ∨ type = MPBUS ∨ type = MPIOINTR ∨ type = MPLINTR

instance (type : UInt8) : Decidable (Known type) := inferInstanceAs (Decidable (_ ∨ _))

/-- How far an entry takes the loop. -/
def size (type : UInt8) : ℕ := if type = MPPROC then 20 else if Known type then 8 else 0

/-- Where entry `n` begins. -/
def entry (t : Table) : ℕ → ℕ
  | 0 => 44
  | n + 1 => entry t n + size (t (entry t n))

/-- The processors among the first `n` entries, in order. -/
def apicids (t : Table) : ℕ → List UInt8
  | 0 => []
  | n + 1 => apicids t n ++ if t (entry t n) = MPPROC then [t (entry t n + 1)] else []

variable {t : Table} {n : ℕ}

theorem size_pos {type : UInt8} (h : Known type) : 8 ≤ size type := by
  unfold size
  rw [if_pos h]
  split <;> decide

theorem size_eq_zero {type : UInt8} (h : ¬ Known type) : size type = 0 := by
  unfold size
  rw [if_neg fun heq => h (Or.inl heq), if_neg h]

theorem entry_mono (t : Table) : Monotone (entry t) :=
  monotone_nat_of_le_succ fun _ => Nat.le_add_right _ _

/-! ## The turns of the loop -/

theorem turn_p (s : Mp) : (turn t s).p = s.p + size (t s.p) := by
  unfold turn
  by_cases hproc : t s.p = MPPROC
  · rw [if_pos hproc, hproc]
    rfl
  rw [if_neg hproc]
  split_ifs with hioapic hother
  · rw [hioapic]
    rfl
  · rcases hother with h | h | h <;> rw [h] <;> rfl
  · rw [size_eq_zero]
    · rfl
    · unfold Known
      tauto

theorem turns_p (n : ℕ) : ((turn t)^[n] (start t)).p = entry t n := by
  induction n with
  | zero => rfl
  | succ n ih => rw [Function.iterate_succ_apply', turn_p, ih, entry]

/-- The loop has made `n` turns. -/
theorem loop_turns {fuel : ℕ} (h : ∀ k < n, entry t k < t.length) :
    loop t (n + fuel) (start t) = loop t fuel ((turn t)^[n] (start t)) := by
  induction n generalizing fuel with
  | zero => rw [Nat.zero_add]; rfl
  | succ n ih =>
    have hlt : ((turn t)^[n] (start t)).p < t.length := by
      rw [turns_p]
      exact h n (Nat.lt_succ_self n)
    rw [Nat.add_right_comm, Nat.add_assoc, ih fun k hk => h k (hk.trans (Nat.lt_succ_self n)), loop,
      if_pos hlt, Function.iterate_succ_apply']

/-- **At an entry of unknown type** the loop does not end. -/
theorem loop_eq_none (hn : entry t n < t.length) (hunknown : ¬ Known (t (entry t n))) (fuel : ℕ) :
    loop t fuel (start t) = none := by
  have hstay : ∀ k, entry t (n + k) = entry t n := by
    intro k
    induction k with
    | zero => rfl
    | succ k ih => rw [← Nat.add_assoc, entry, ih, size_eq_zero hunknown, Nat.add_zero]
  have hlt : ∀ k < fuel, entry t k < t.length := by
    intro k _
    have hle := entry_mono t (Nat.le_add_left k n)
    rw [hstay] at hle
    exact hle.trans_lt hn
  have hloop : loop t (fuel + 0) (start t) = none := loop_turns hlt
  exact hloop

/-- What the turns have recorded. -/
theorem turns_cpus (h : ∀ k < n, Known (t (entry t k))) :
    ((turn t)^[n] (start t)).ismp = true ∧
      ((turn t)^[n] (start t)).cpus = (apicids t n).take NCPU := by
  induction n with
  | zero => exact ⟨rfl, rfl⟩
  | succ n ih =>
    obtain ⟨hismp, hcpus⟩ := ih fun k hk => h k (hk.trans (Nat.lt_succ_self n))
    have hknown : Known _ := h n (Nat.lt_succ_self n)
    unfold Known at hknown
    rw [Function.iterate_succ_apply', turn, turns_p, apicids]
    by_cases hproc : t (entry t n) = MPPROC
    · rw [if_pos hproc, if_pos hproc]
      refine ⟨hismp, ?_⟩
      rw [hcpus, List.length_take]
      -- there is room for the processor, or `NCPU` of them are recorded
      rcases Nat.lt_or_ge (apicids t n).length NCPU with hlt | hge
      · rw [if_pos (by omega), List.take_of_length_le hlt.le, List.take_of_length_le]
        rw [List.length_append]
        exact hlt
      · rw [if_neg (by omega), List.take_append_of_le_length hge]
    · rw [if_neg hproc, if_neg hproc, List.append_nil]
      split_ifs with hioapic hother
      · exact ⟨hismp, hcpus⟩
      · exact ⟨hismp, hcpus⟩
      · tauto

/-! ## The end of the loop -/

/-- What is expected of `mpinit`: the first processors are recorded, in order and at most `NCPU` of them, or
there is an entry of unknown type and it panics. -/
def Parsed (t : Table) : Except String Mp → Prop
  | .ok s => ∃ n, (∀ k < n, entry t k < t.length) ∧ t.length ≤ entry t n ∧
      s.cpus = (apicids t n).take NCPU
  | .error msg => msg = "Didn't find a suitable machine" ∧
      ∃ n, entry t n < t.length ∧ ¬ Known (t (entry t n))

/-- Entries of known types come to an end. -/
theorem exists_end (h : ∀ n, entry t n < t.length → Known (t (entry t n))) :
    ∃ n, (∀ k < n, entry t k < t.length) ∧ t.length ≤ entry t n := by
  classical
  have hsome : ∃ n, t.length ≤ entry t n := by
    by_contra hnone
    push Not at hnone
    have hfar : ∀ n, n ≤ entry t n := by
      intro n
      induction n with
      | zero => exact Nat.zero_le _
      | succ n ih =>
        have hsize := size_pos (h n (hnone n))
        rw [entry]
        omega
    exact absurd (hfar t.length) (not_le.mpr (hnone t.length))
  exact ⟨Nat.find hsome, fun k hk => not_le.mp (Nat.find_min hsome hk), Nat.find_spec hsome⟩

/-- **The loop of `mpinit` ends as expected** if and only if every entry it comes to is of a known type. -/
theorem mpinit_ends_iff (ht : mpconfig t = true) :
    (∃ fuel r, mpinit fuel t = some r ∧ Parsed t r) ↔
      ∀ n, entry t n < t.length → Known (t (entry t n)) := by
  constructor
  · rintro ⟨fuel, r, hr, -⟩ n hn
    by_contra hunknown
    rw [mpinit, if_pos ht, loop_eq_none hn hunknown] at hr
    cases hr
  · intro h
    obtain ⟨n, hlt, hle⟩ := exists_end h
    obtain ⟨hismp, hcpus⟩ := turns_cpus fun k hk => h k (hlt k hk)
    refine ⟨n + 1, .ok ((turn t)^[n] (start t)), ?_, n, hlt, hle, hcpus⟩
    rw [mpinit, if_pos ht, loop_turns hlt, loop, turns_p, if_neg (not_lt.mpr hle), Option.map_some, hismp]
    rfl

/-- A header and the bytes behind it. -/
def tableOf (length checksum : UInt8) (entries : List UInt8) : Table := fun k =>
  ([80, 67, 77, 80, length, 0, 1, checksum] ++ List.replicate 36 0 ++ entries).getD k 0

/-- Two processors with a bus between them. -/
def twoCpus : Table := tableOf 92 106 ([0, 3] ++ List.replicate 18 0 ++ [1, 0, 0, 0, 0, 0, 0, 0, 0, 5])

theorem mpinit_ends_twoCpus : ∃ fuel r, mpinit fuel twoCpus = some r ∧ Parsed twoCpus r := by
  refine (mpinit_ends_iff (by decide +kernel)).mpr fun n hn => ?_
  match n with
  | 0 | 1 | 2 => decide +kernel
  | n + 3 => exact absurd (hn.trans_le (by decide +kernel)) (not_lt.mpr (entry_mono _ (Nat.le_add_left 3 n)))

/-- **One entry of type 5**: the table is valid, and `mpinit` does not return. -/
theorem not_mpinit_ends : mpconfig (tableOf 45 157 [5]) = true ∧
    ∀ fuel, mpinit fuel (tableOf 45 157 [5]) = none := by
  have ht : mpconfig (tableOf 45 157 [5]) = true := by decide +kernel
  refine ⟨ht, fun fuel => ?_⟩
  rw [mpinit, if_pos ht, loop_eq_none (n := 0) (by decide +kernel) (by decide +kernel)]
  rfl

end MpTable
