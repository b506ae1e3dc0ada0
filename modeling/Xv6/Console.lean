/-
# Console input

`consoleintr` and `consoleread` of `console.c`.  The input buffer is a ring of `INPUT_BUF` bytes
with three `uint` indices that wrap: bytes are read at `r`, those before `w` are committed, and the
line that is edited ends at `e`.  An interrupt delivers characters; any number of processes are in
`consoleread`, and a step of one of them is a round of its loop.  (The console's spinlock makes
more rounds one step; here they interleave freely.)  What is shown on the screen is left out.

`Editor` is the reference: the committed input as a list that grows at its end, and the line that
is edited.  The main result is that the ring refines it (`console_line_fifo`): the same calls
return the same bytes, and these are the committed input in order, without its control-Ds.
-/
import Xv6.Fifo
import Xv6.LittleEndian
import Xv6.Runs

open Function List Option

namespace Console

abbrev INPUT_BUF : ℕ := 128

/-- `C(x)`: control-x. -/
def ctrl (x : Char) : UInt8 := x.toUInt8 - 0x40

abbrev newline : UInt8 := 0x0a

abbrev carriageReturn : UInt8 := 0x0d

abbrev delete : UInt8 := 0x7f

/-! ## Readers -/

/-- A call of `consoleread`: what it was asked for, what is left of that, and the bytes it has
stored. -/
structure Call where
  target : ℤ
  n : ℤ
  dst : List UInt8

/-- `*dst++ = c; --n;` -/
def Call.add (c : Call) (b : UInt8) : Call := { c with n := c.n - 1, dst := c.dst ++ [b] }

/-- A call that has returned. -/
structure Return where
  call : Call
  result : ℤ

/-- The calls of `consoleread` of all processes. -/
structure Readers (P : Type) where
  calls : P → Option Call
  /-- The bytes that the calls have stored so far. -/
  stored : List UInt8
  /-- The calls that have returned so far. -/
  returned : List Return

namespace Readers

variable {P : Type} [DecidableEq P]

/-- `p` calls `consoleread`. -/
def enter (rd : Readers P) (p : P) (n : ℤ) : Readers P :=
  { rd with calls := update rd.calls p (some ⟨n, n, []⟩) }

/-- `p` stores a byte. -/
def store (rd : Readers P) (p : P) (c : Call) (b : UInt8) : Readers P :=
  { rd with calls := update rd.calls p (some (c.add b)), stored := rd.stored ++ [b] }

/-- `p` returns. -/
def ret (rd : Readers P) (p : P) (c : Call) (result : ℤ) : Readers P :=
  { rd with calls := update rd.calls p none, returned := rd.returned ++ [⟨c, result⟩] }

end Readers

/-! ## The ring -/

/-- The input buffer and the calls that read it. -/
structure State (P : Type) extends Readers P where
  buf : ℕ → UInt8
  r : ℕ
  w : ℕ
  e : ℕ

/-- The steps. -/
inductive Event (P : Type) where
  /-- An interrupt: the characters that `getc` returns one after the other. -/
  | consoleintr (chars : List UInt8)
  | consoleread (p : P) (n : ℤ)
  /-- A round of the loop of `consoleread`. -/
  | round (p : P) (killed : Bool)

namespace State

variable {P : Type}

/-- Before any input. -/
def init (buf : ℕ → UInt8) : State P := ⟨⟨fun _ => none, [], []⟩, buf, 0, 0, 0⟩

/-- The loop that kills a line.  It moves `e` towards `w`, so `e - w` rounds are enough. -/
def killLine : ℕ → State P → State P
  | 0, s => s
  | rounds + 1, s =>
    if s.e ≠ s.w ∧ s.buf (u32 (s.e + 2 ^ 32 - 1) % INPUT_BUF) ≠ newline then
      killLine rounds { s with e := u32 (s.e + 2 ^ 32 - 1) }
    else s

/-- What `consoleintr` does with a character. -/
def input (s : State P) (c : UInt8) : State P :=
  if c = ctrl 'P' then s
  else if c = ctrl 'U' then killLine (u32 (s.e + 2 ^ 32 - s.w)) s
  else if c = ctrl 'H' ∨ c = delete then
    if s.e ≠ s.w then { s with e := u32 (s.e + 2 ^ 32 - 1) } else s
  else if c ≠ 0 ∧ u32 (s.e + 2 ^ 32 - s.r) < INPUT_BUF then
    let c := if c = carriageReturn then newline else c
    let s := { s with buf := update s.buf (s.e % INPUT_BUF) c, e := u32 (s.e + 1) }
    if c = newline ∨ c = ctrl 'D' ∨ s.e = u32 (s.r + INPUT_BUF) then { s with w := s.e } else s
  else s

/-- The characters of an interrupt. -/
def consoleintr (s : State P) (chars : List UInt8) : State P := chars.foldl input s

variable [DecidableEq P]

/-- A round of the loop of `consoleread`, in the call `c` of `p`; a process that sleeps is at its
beginning. -/
def consoleread (s : State P) (p : P) (c : Call) (killed : Bool) : State P :=
  if c.n ≤ 0 then { s with toReaders := s.ret p c (c.target - c.n) }
  else if s.r = s.w then
    if killed then { s with toReaders := s.ret p c (-1) } else s
  else
    let b := s.buf (s.r % INPUT_BUF)
    let s := { s with r := u32 (s.r + 1) }
    if b = ctrl 'D' then
      -- the control-D is left for the next call when this one has bytes to return
      let s := if c.n < c.target then { s with r := u32 (s.r + 2 ^ 32 - 1) } else s
      { s with toReaders := s.ret p c (c.target - c.n) }
    else
      let s := { s with toReaders := s.store p c b }
      if b = newline then { s with toReaders := s.ret p (c.add b) (c.target - (c.add b).n) } else s

/-- **The steps**; `none` when a step is not possible. -/
def step (s : State P) : Event P → Option (State P)
  | .consoleintr chars => some (s.consoleintr chars)
  | .consoleread p n =>
    if (s.calls p).isNone then some { s with toReaders := s.enter p n } else none
  | .round p killed => (s.calls p).map fun c => s.consoleread p c killed

end State

/-! ## The reference -/

/-- A line editor: all input that has been committed, how much of it has been read, and the line
that is edited. -/
structure Editor where
  committed : List UInt8
  taken : ℕ
  line : List UInt8

namespace Editor

/-- The committed input that has not been read. -/
def unread (ed : Editor) : List UInt8 := ed.committed.drop ed.taken

/-- The line becomes part of the committed input. -/
def commit (ed : Editor) : Editor := { ed with committed := ed.committed ++ ed.line, line := [] }

/-- A byte at the end of the line; a newline, a control-D and the last free place commit it. -/
def append (ed : Editor) (c : UInt8) : Editor :=
  let ed := { ed with line := ed.line ++ [c] }
  if c = newline ∨ c = ctrl 'D' ∨ ed.unread.length + ed.line.length = INPUT_BUF then ed.commit
  else ed

/-- What a character does. -/
def input (ed : Editor) (c : UInt8) : Editor :=
  if c = ctrl 'P' then ed
  else if c = ctrl 'U' then { ed with line := [] }
  else if c = ctrl 'H' ∨ c = delete then { ed with line := ed.line.dropLast }
  else if c ≠ 0 ∧ ed.unread.length + ed.line.length < INPUT_BUF then
    ed.append (if c = carriageReturn then newline else c)
  else ed

/-- The next byte has been read. -/
def take (ed : Editor) : Editor := { ed with taken := ed.taken + 1 }

end Editor

/-- The editor and the calls that read from it. -/
structure Reference (P : Type) extends Readers P where
  ed : Editor

namespace Reference

variable {P : Type}

def init : Reference P := ⟨⟨fun _ => none, [], []⟩, ⟨[], 0, []⟩⟩

def consoleintr (a : Reference P) (chars : List UInt8) : Reference P :=
  { a with ed := chars.foldl Editor.input a.ed }

variable [DecidableEq P]

/-- A call takes the next byte of the committed input.  A newline ends it; a control-D ends it and
is not stored, and stays where it is if the call has bytes to return. -/
def consoleread (a : Reference P) (p : P) (c : Call) (killed : Bool) : Reference P :=
  if c.n ≤ 0 then { a with toReaders := a.ret p c c.dst.length }
  else
    match a.ed.unread with
    | [] => if killed then { a with toReaders := a.ret p c (-1) } else a
    | b :: _ =>
      if b = ctrl 'D' then
        { ed := if c.dst = [] then a.ed.take else a.ed
          toReaders := a.ret p c c.dst.length }
      else if b = newline then
        { ed := a.ed.take
          toReaders := (a.store p c b).ret p (c.add b) (c.add b).dst.length }
      else { ed := a.ed.take, toReaders := a.store p c b }

def step (a : Reference P) : Event P → Option (Reference P)
  | .consoleintr chars => some (a.consoleintr chars)
  | .consoleread p n =>
    if (a.calls p).isNone then some { a with toReaders := a.enter p n } else none
  | .round p killed => (a.calls p).map fun c => a.consoleread p c killed

end Reference

/-! ## Calls -/

/-- What holds of a call: it counts the bytes it has stored, and has stored no control-D. -/
structure Call.Sound (c : Call) : Prop where
  count : c.n = c.target - c.dst.length
  no_eof : ctrl 'D' ∉ c.dst

/-- A call returns the number of the bytes it has stored, or `-1` if it was killed. -/
structure Return.Sound (x : Return) : Prop where
  call : x.call.Sound
  result : x.result = x.call.dst.length ∨ x.result = -1

theorem Call.Sound.add {c : Call} (h : c.Sound) {b : UInt8} (hb : b ≠ ctrl 'D') :
    (c.add b).Sound where
  count := by
    have hcount := h.count
    simp only [Call.add, length_append, length_singleton]
    omega
  no_eof hmem := by
    rcases mem_append.mp hmem with hmem | hmem
    · exact h.no_eof hmem
    · exact hb (mem_singleton.mp hmem).symm

/-- All calls are sound. -/
structure Readers.Sound {P : Type} (rd : Readers P) : Prop where
  calls : ∀ p c, rd.calls p = some c → c.Sound
  returned : ∀ x ∈ rd.returned, x.Sound

namespace Readers

variable {P : Type} [DecidableEq P] {rd : Readers P} {p : P} {c : Call}

theorem Sound.enter (h : rd.Sound) (p : P) (n : ℤ) : (rd.enter p n).Sound := by
  refine ⟨fun q c hc => ?_, h.returned⟩
  by_cases hq : q = p
  · rw [hq] at hc
    obtain rfl := some.inj ((update_self p _ _).symm.trans hc)
    exact ⟨by simp, nofun⟩
  · exact h.calls q c ((update_of_ne hq _ _).symm.trans hc)

theorem Sound.store (h : rd.Sound) (hc : c.Sound) {b : UInt8} (hb : b ≠ ctrl 'D') (p : P) :
    (rd.store p c b).Sound := by
  refine ⟨fun q d hd => ?_, h.returned⟩
  by_cases hq : q = p
  · rw [hq] at hd
    obtain rfl := some.inj ((update_self p _ _).symm.trans hd)
    exact hc.add hb
  · exact h.calls q d ((update_of_ne hq _ _).symm.trans hd)

theorem Sound.ret (h : rd.Sound) (hc : c.Sound) {result : ℤ}
    (hresult : result = c.dst.length ∨ result = -1) (p : P) : (rd.ret p c result).Sound := by
  refine ⟨fun q d hd => ?_, fun x hx => ?_⟩
  · by_cases hq : q = p
    · rw [hq] at hd
      exact absurd ((update_self p _ _).symm.trans hd) (by simp)
    · exact h.calls q d ((update_of_ne hq _ _).symm.trans hd)
  · rcases mem_append.mp hx with hx | hx
    · exact h.returned x hx
    · rw [mem_singleton.mp hx]
      exact ⟨hc, hresult⟩

end Readers

/-! ## The ring shows the editor -/

section Simulation

variable {P : Type}

/-- The ring holds the committed input that has not been read and then the line.  The bytes stored
so far are the committed input that has been read, without its control-Ds. -/
structure Shows (s : State P) (a : Reference P) : Prop where
  readers : s.toReaders = a.toReaders
  ring : Fifo.Holds INPUT_BUF (2 ^ 32) s.buf s.r s.e (a.ed.unread ++ a.ed.line)
  committed : s.w = u32 (s.r + a.ed.unread.length)
  line : newline ∉ a.ed.line
  taken : a.ed.taken ≤ a.ed.committed.length
  stored : a.stored = (a.ed.committed.take a.ed.taken).filter (· ≠ ctrl 'D')
  sound : a.Sound

theorem inputBuf_lt : INPUT_BUF < 2 ^ 32 := by decide

theorem inputBuf_dvd : INPUT_BUF ∣ 2 ^ 32 := by decide

namespace Shows

variable {s : State P} {a : Reference P}

section

variable (h : Shows s a)

include h

/-- The committed bytes are between `r` and `w`. -/
theorem unread_holds : Fifo.Holds INPUT_BUF (2 ^ 32) s.buf s.r s.w a.ed.unread := by
  rw [h.committed]
  exact (h.ring.split inputBuf_dvd).1

/-- The line is between `w` and `e`. -/
theorem line_holds : Fifo.Holds INPUT_BUF (2 ^ 32) s.buf s.w s.e a.ed.line := by
  rw [h.committed]
  exact (h.ring.split inputBuf_dvd).2

theorem line_length : u32 (s.e + 2 ^ 32 - s.w) = a.ed.line.length :=
  (h.line_holds.length_eq inputBuf_lt).symm

theorem ring_length :
    u32 (s.e + 2 ^ 32 - s.r) = a.ed.unread.length + a.ed.line.length := by
  rw [← length_append]
  exact (h.ring.length_eq inputBuf_lt).symm

/-- The edited part of the line is erased from its end. -/
theorem erase {l : List UInt8} {b : UInt8} (hline : a.ed.line = l ++ [b]) :
    s.buf (u32 (s.e + 2 ^ 32 - 1) % INPUT_BUF) = b ∧
      Shows { s with e := u32 (s.e + 2 ^ 32 - 1) } { a with ed := { a.ed with line := l } } := by
  have hring := h.ring
  rw [hline, ← append_assoc] at hring
  obtain ⟨hlast, hring⟩ := hring.unpush inputBuf_dvd
  refine ⟨hlast, h.readers, hring, h.committed, fun hmem => ?_, h.taken, h.stored, h.sound⟩
  exact h.line (by rw [hline]; exact mem_append_left _ hmem)

/-- The loop of control-U erases the whole line: there is no newline in it. -/
theorem killLine :
    Shows (State.killLine a.ed.line.length s) { a with ed := { a.ed with line := [] } } := by
  generalize hd : a.ed.line.length = d
  induction d generalizing s a with
  | zero =>
    have hnil := eq_nil_of_length_eq_zero hd
    have ha : { a with ed := { a.ed with line := [] } } = a := by rw [← hnil]
    rw [ha]
    exact h
  | succ d ih =>
    obtain ⟨l, b, hline⟩ := eq_nil_or_concat' a.ed.line |>.resolve_left fun hnil => by
      rw [hnil] at hd
      cases hd
    obtain ⟨hlast, herase⟩ := h.erase hline
    have hne : s.e ≠ s.w := fun heq => by
      rw [(h.line_holds.eq_iff inputBuf_lt).mp heq.symm] at hd
      cases hd
    have hb : b ≠ newline := by
      rintro rfl
      exact h.line (by rw [hline]; simp)
    have hlen : l.length = d := by
      rw [hline, length_append, length_singleton] at hd
      omega
    rw [State.killLine, if_pos ⟨hne, by rwa [hlast]⟩]
    exact ih (a := { a with ed := { a.ed with line := l } }) herase hlen

theorem dropLast :
    Shows (if s.e ≠ s.w then { s with e := u32 (s.e + 2 ^ 32 - 1) } else s)
      { a with ed := { a.ed with line := a.ed.line.dropLast } } := by
  have hempty := h.line_holds.eq_iff inputBuf_lt
  rcases eq_nil_or_concat' a.ed.line with hline | ⟨l, b, hline⟩
  · have ha : { a with ed := { a.ed with line := a.ed.line.dropLast } } = a := by
      rw [hline, dropLast_nil, ← hline]
    rw [if_neg (not_not.mpr (hempty.mpr hline).symm), ha]
    exact h
  · have hne : s.e ≠ s.w := fun heq => by
      have hnil := hempty.mp heq.symm
      rw [hline] at hnil
      exact absurd hnil (by simp)
    rw [if_pos hne, hline, dropLast_concat]
    exact (h.erase hline).2

/-- A byte is appended and, if that is due, the line committed. -/
theorem append (hroom : a.ed.unread.length + a.ed.line.length < INPUT_BUF) (c : UInt8) :
    Shows
      (let s := { s with buf := update s.buf (s.e % INPUT_BUF) c, e := u32 (s.e + 1) }
       if c = newline ∨ c = ctrl 'D' ∨ s.e = u32 (s.r + INPUT_BUF) then { s with w := s.e } else s)
      { a with ed := a.ed.append c } := by
  have hring := h.ring.push inputBuf_dvd (by rwa [length_append]) c
  have hfull := hring.full_iff inputBuf_lt
  rw [append_assoc] at hring hfull
  rw [length_append] at hfull
  have hunread : ∀ l : List UInt8,
      (a.ed.committed ++ l).drop a.ed.taken = a.ed.unread ++ l := fun l =>
    drop_append_of_le_length h.taken
  simp only [Editor.append]
  by_cases hcommit : c = newline ∨ c = ctrl 'D' ∨ u32 (s.e + 1) = u32 (s.r + INPUT_BUF)
  · have hcommit' : c = newline ∨ c = ctrl 'D' ∨
        a.ed.unread.length + (a.ed.line ++ [c]).length = INPUT_BUF :=
      hcommit.imp_right (Or.imp_right hfull.mp)
    rw [if_pos hcommit, if_pos]
    · refine ⟨h.readers, ?_, ?_, nofun, ?_, ?_, h.sound⟩
      · show Fifo.Holds _ _ _ _ _ ((a.ed.committed ++ (a.ed.line ++ [c])).drop a.ed.taken ++ [])
        rw [hunread, append_nil]
        exact hring
      · show u32 (s.e + 1) = u32 (s.r +
          ((a.ed.committed ++ (a.ed.line ++ [c])).drop a.ed.taken).length)
        rw [hunread]
        exact hring.count
      · show a.ed.taken ≤ (a.ed.committed ++ (a.ed.line ++ [c])).length
        rw [length_append]
        exact h.taken.trans (Nat.le_add_right _ _)
      · show a.stored = ((a.ed.committed ++ (a.ed.line ++ [c])).take a.ed.taken).filter _
        rw [take_append_of_le_length h.taken]
        exact h.stored
    · exact hcommit'
  · rw [if_neg hcommit, if_neg]
    · refine ⟨h.readers, hring, h.committed, fun hmem => ?_, h.taken, h.stored, h.sound⟩
      rcases mem_append.mp hmem with hmem | hmem
      · exact h.line hmem
      · exact hcommit (Or.inl (mem_singleton.mp hmem).symm)
    · exact fun hc => hcommit (hc.imp_right (Or.imp_right hfull.mpr))

/-- **A character** does to the ring what it does to the editor. -/
theorem input (c : UInt8) :
    Shows (s.input c) { a with ed := a.ed.input c } := by
  unfold State.input Editor.input
  rw [h.line_length, h.ring_length]
  by_cases hP : c = ctrl 'P'
  · rw [if_pos hP, if_pos hP]
    exact h
  rw [if_neg hP, if_neg hP]
  by_cases hU : c = ctrl 'U'
  · rw [if_pos hU, if_pos hU]
    exact h.killLine
  rw [if_neg hU, if_neg hU]
  by_cases hH : c = ctrl 'H' ∨ c = delete
  · rw [if_pos hH, if_pos hH]
    exact h.dropLast
  rw [if_neg hH, if_neg hH]
  by_cases hroom : c ≠ 0 ∧ a.ed.unread.length + a.ed.line.length < INPUT_BUF
  · rw [if_pos hroom, if_pos hroom]
    exact h.append hroom.2 _
  · rw [if_neg hroom, if_neg hroom]
    exact h

theorem consoleintr (chars : List UInt8) :
    Shows (s.consoleintr chars) (a.consoleintr chars) := by
  induction chars generalizing s a with
  | nil => exact h
  | cons c chars ih => exact ih (h.input c)

end

variable [DecidableEq P]

omit [DecidableEq P] in
/-- The next byte of the committed input is taken. -/
theorem take {b : UInt8} {rest : List UInt8} (h : Shows s a) (hunread : a.ed.unread = b :: rest)
    {rd : Readers P} (hrd : rd.Sound)
    (hstored : rd.stored = a.stored ++ if b = ctrl 'D' then [] else [b]) :
    Shows { s with r := u32 (s.r + 1), toReaders := rd } { ed := a.ed.take, toReaders := rd } := by
  have hlt : a.ed.taken < a.ed.committed.length := by
    by_contra hge
    have hnil : a.ed.unread = [] := drop_eq_nil_of_le (not_lt.mp hge)
    rw [hunread] at hnil
    cases hnil
  have hdrop : a.ed.unread = a.ed.committed[a.ed.taken] :: a.ed.take.unread :=
    drop_eq_getElem_cons hlt
  rw [hunread] at hdrop
  obtain ⟨hb, hrest⟩ := cons.inj hdrop
  have hring := h.ring
  rw [hunread, cons_append] at hring
  refine ⟨rfl, ?_, ?_, h.line, hlt, ?_, hrd⟩
  · show Fifo.Holds _ _ s.buf (u32 (s.r + 1)) s.e (a.ed.take.unread ++ a.ed.line)
    rw [← hrest]
    exact (hring.pop inputBuf_dvd).2
  · show s.w = u32 (u32 (s.r + 1) + a.ed.take.unread.length)
    rw [← hrest, h.committed, hunread, length_cons]
    unfold u32
    rw [Nat.mod_add_mod]
    congr 1
    omega
  · show rd.stored = (a.ed.committed.take (a.ed.taken + 1)).filter _
    rw [hstored, h.stored, take_succ_eq_append_getElem hlt, filter_append, ← hb]
    congr 1
    by_cases hD : b = ctrl 'D' <;> simp [hD]

/-- **A round** of `consoleread` takes from the ring what the reference takes from the committed
input. -/
theorem consoleread (h : Shows s a) {p : P} {c : Call} (hcall : a.calls p = some c) (killed : Bool) :
    Shows (s.consoleread p c killed) (a.consoleread p c killed) := by
  have hc := h.sound.calls p c hcall
  have hcount := hc.count
  have hresult : c.target - c.n = c.dst.length := by omega
  unfold State.consoleread Reference.consoleread
  rw [h.readers, hresult]
  by_cases hn : c.n ≤ 0
  · rw [if_pos hn, if_pos hn]
    exact ⟨rfl, h.ring, h.committed, h.line, h.taken, h.stored, h.sound.ret hc (Or.inl rfl) p⟩
  rw [if_neg hn, if_neg hn]
  have hempty := h.unread_holds.eq_iff inputBuf_lt
  cases hunread : a.ed.unread with
  | nil =>
    rw [if_pos (hempty.mpr hunread)]
    cases killed with
    | false => exact h
    | true =>
      exact ⟨rfl, h.ring, h.committed, h.line, h.taken, h.stored,
        h.sound.ret hc (Or.inr rfl) p⟩
  | cons b rest =>
    have hne : s.r ≠ s.w := fun heq => absurd (hempty.mp heq) (by rw [hunread]; simp)
    have hbyte : s.buf (s.r % INPUT_BUF) = b := by
      have hring := h.ring
      rw [hunread, cons_append] at hring
      exact (hring.pop inputBuf_dvd).1
    rw [if_neg hne, hbyte]
    by_cases hD : b = ctrl 'D'
    · simp only [if_pos hD]
      by_cases hfirst : c.dst = []
      · have hall : ¬ c.n < c.target := by
          rw [hcount, hfirst]
          simp
        rw [if_neg hall, if_pos hfirst]
        exact h.take hunread (h.sound.ret hc (Or.inl rfl) p) (by simp [hD, Readers.ret])
      · have hsome : c.n < c.target := by
          have := length_pos_of_ne_nil hfirst
          omega
        have hback : u32 (u32 (s.r + 1) + 2 ^ 32 - 1) = s.r := by
          have := h.ring.lt
          unfold u32
          omega
        rw [if_pos hsome, if_neg hfirst]
        simp only [hback]
        exact ⟨rfl, h.ring, h.committed, h.line, h.taken, h.stored,
          h.sound.ret hc (Or.inl rfl) p⟩
    · simp only [if_neg hD]
      have hstore := h.sound.store hc hD p
      by_cases hnl : b = newline
      · have hresult' : c.target - (c.add b).n = (c.add b).dst.length := by
          have := (hc.add hD).count
          have : (c.add b).target = c.target := rfl
          omega
        simp only [if_pos hnl, hresult']
        exact h.take hunread (hstore.ret (hc.add hD) (Or.inl rfl) p)
          (by simp [hD, Readers.ret, Readers.store])
      · simp only [if_neg hnl]
        exact h.take hunread hstore (by simp [hD, Readers.store])

/-- A step of the ring is a step of the reference. -/
theorem step (h : Shows s a) {ev : Event P} {s' : State P} (hstep : s.step ev = some s') :
    ∃ a', a.step ev = some a' ∧ Shows s' a' := by
  cases ev with
  | consoleintr chars =>
    obtain rfl := some.inj hstep
    exact ⟨_, rfl, h.consoleintr chars⟩
  | consoleread p n =>
    obtain ⟨hnone, hs'⟩ := ite_none_right_eq_some.mp hstep
    obtain rfl := some.inj hs'
    have hnone' : (a.calls p).isNone = true := h.readers ▸ hnone
    refine ⟨_, if_pos hnone', ?_⟩
    rw [h.readers]
    exact ⟨rfl, h.ring, h.committed, h.line, h.taken, h.stored, h.sound.enter p n⟩
  | round p killed =>
    obtain ⟨c, hcall, rfl⟩ := map_eq_some_iff.mp hstep
    have hcall' : a.calls p = some c := h.readers ▸ hcall
    refine ⟨_, map_eq_some_iff.mpr ⟨c, hcall', rfl⟩, h.consoleread hcall' killed⟩

omit [DecidableEq P] in
theorem init (buf : ℕ → UInt8) : Shows (State.init buf : State P) Reference.init where
  readers := rfl
  ring := .empty (show 0 < 2 ^ 32 by decide) buf
  committed := rfl
  line := nofun
  taken := le_rfl
  stored := rfl
  sound := ⟨nofun, nofun⟩

/-- A run of the ring is a run of the reference. -/
theorem run (h : Shows s a) {events : List (Event P)} {s' : State P}
    (hrun : Runs.run State.step s events = some s') :
    ∃ a', Runs.run Reference.step a events = some a' ∧ Shows s' a' := by
  induction events generalizing s a with
  | nil =>
    cases hrun
    exact ⟨a, rfl, h⟩
  | cons ev events ih =>
    obtain ⟨t, hstep, hrest⟩ := Runs.run_cons_eq_some.mp hrun
    obtain ⟨b, hstep', hb⟩ := h.step hstep
    obtain ⟨a', hrun', ha'⟩ := ih hb hrest
    exact ⟨a', Runs.run_cons_eq_some.mpr ⟨b, hstep', hrun'⟩, ha'⟩

end Shows

/-- **Console input is a line-edited queue.**  Every run of the ring is a run of the reference, with
the same calls and the same bytes stored.  The indices keep their order modulo `2 ^ 32`.  The bytes
stored are the committed input that has been read, in order and without its control-Ds; what has
not been read is in the ring, followed by the line that is edited.  A call returns the number of
the bytes it has stored, or `-1` if its process is killed. -/
theorem console_line_fifo [DecidableEq P] {buf : ℕ → UInt8} {events : List (Event P)} {s : State P}
    (hrun : Runs.run State.step (State.init buf) events = some s) :
    (u32 (s.w + 2 ^ 32 - s.r) ≤ u32 (s.e + 2 ^ 32 - s.r) ∧
      u32 (s.e + 2 ^ 32 - s.r) ≤ INPUT_BUF) ∧
    (∃ a, Runs.run Reference.step Reference.init events = some a ∧ s.toReaders = a.toReaders ∧
      a.ed.taken ≤ a.ed.committed.length ∧
      s.stored = (a.ed.committed.take a.ed.taken).filter (· ≠ ctrl 'D') ∧
      Fifo.Holds INPUT_BUF (2 ^ 32) s.buf s.r s.w (a.ed.committed.drop a.ed.taken) ∧
      Fifo.Holds INPUT_BUF (2 ^ 32) s.buf s.w s.e a.ed.line) ∧
    ∀ x ∈ s.returned, x.Sound := by
  obtain ⟨a, hrun', h⟩ := (Shows.init buf).run hrun
  refine ⟨⟨?_, ?_⟩, ⟨a, hrun', h.readers, h.taken, ?_, h.unread_holds, h.line_holds⟩, ?_⟩
  · have hw : u32 (s.w + 2 ^ 32 - s.r) = a.ed.unread.length :=
      (h.unread_holds.length_eq inputBuf_lt).symm
    rw [hw, h.ring_length]
    exact Nat.le_add_right _ _
  · rw [h.ring_length, ← length_append]
    exact h.ring.le
  · rw [h.readers]
    exact h.stored
  · rw [h.readers]
    exact h.sound.returned

/-- A line with a correction, then a control-D: two calls read the line, the third ends. -/
def editAndRead : List (Event Unit) :=
  [.consoleintr [0x68, 0x78, ctrl 'H', 0x69, carriageReturn, ctrl 'D']] ++
    [.consoleread () 2, .round () false, .round () false, .round () false] ++
    [.consoleread () 9, .round () false, .consoleread () 9, .round () false]

theorem console_line_fifo_edit : ∃ s, Runs.run State.step (State.init fun _ => 0) editAndRead = some s ∧
    s.stored = [0x68, 0x69, newline] ∧ s.returned.map Return.result = [2, 1, 0] ∧
    ∀ x ∈ s.returned, x.Sound := by
  have hrun : (Runs.run State.step (State.init fun _ => 0) editAndRead).map
      (fun s => (s.stored, s.returned.map Return.result)) =
      some ([0x68, 0x69, newline], [2, 1, 0]) := by
    decide +kernel
  obtain ⟨s, hs, hbytes⟩ := map_eq_some_iff.mp hrun
  obtain ⟨hstored, hreturned⟩ := Prod.mk.inj hbytes
  exact ⟨s, hs, hstored, hreturned, (console_line_fifo hs).2.2⟩

end Simulation

end Console
