import PatternMachine.Machine.Visited
import PatternMachine.Program.Basic
import PatternMachine.Subject

/-!
# The matching machine

The machine runs a program over a subject one thread at a time. A thread runs until it dies; a
`split` lets it go on with the first of two ways and puts the second in front of the threads that
wait. So earlier ways are tried out before later ones, and the first thread to reach `accept` has
the preferred match. A thread dies at a character it cannot read, and at a state that was entered
before: that one has failed already or is being tried by a thread that came first.
-/

namespace PatternMachine

/-- A program to be run over a subject with at most `threadLimit` threads waiting. -/
structure Machine where
  program : Program
  subject : Subject
  threadLimit : Nat

/-- The waiting threads, the next one first, and their number. -/
structure Ready where
  threads : List Thread := []
  size : Nat := 0
  size_eq : size = threads.length := by rfl

namespace Ready

/-- Puts `t` in front. -/
def push (t : Thread) (r : Ready) : Ready :=
  ⟨t :: r.threads, r.size + 1, by simp [r.size_eq]⟩

/-- Takes the thread in front. -/
def pop? (r : Ready) : Option (Thread × Ready) :=
  match h : r.threads with
  | [] => none
  | t :: rest => some (t, ⟨rest, r.size - 1, by simp [r.size_eq, h]⟩)

/-- Taking a thread leaves one fewer to wait. -/
theorem size_of_pop? {r r' : Ready} {t : Thread} (h : r.pop? = some (t, r')) :
    r.size = r'.size + 1 := by
  unfold pop? at h
  split at h
  · cases h
  · rename_i hr
    cases h
    simp [r.size_eq, hr]

end Ready

/-- What an instruction does with the thread that executes it. -/
inductive Move where
  /-- The thread ends. -/
  | die
  /-- The thread has matched. -/
  | accept
  /-- The thread goes on as `t`. -/
  | goto (t : Thread)
  /-- The thread goes on as `first`, and `second` waits. -/
  | fork (first second : Thread)
  /-- There is no such instruction, or no such character to read. -/
  | outside
deriving DecidableEq

/-- The machine between two instructions: the thread that runs, those that wait, and the states
entered so far. -/
structure Config (b : Bounds) where
  current : Thread
  ready : Ready := {}
  visited : Visited b

/-- How an attempt to match at one position ends. -/
inductive Attempt (b : Bounds) where
  /-- A match ends at position `stop`. -/
  | accepted (stop : Nat)
  /-- There is no match; these states have been entered. -/
  | failed (visited : Visited b)
  /-- The machine stopped without an answer. -/
  | stopped (error : SearchError)

/-- The outcome of one step. -/
inductive Step (b : Bounds) where
  | next (c : Config b)
  | done (result : Attempt b)

/-- What bounds the number of steps still to come: a step enters a state, and may then let one more
thread wait, or it uses up a waiting thread. -/
def Config.potential {b : Bounds} (c : Config b) : Nat :=
  2 * c.visited.unvisited + c.ready.size

/-- Goes on with the first of the waiting threads. -/
def Step.resume {b : Bounds} (ready : Ready) (visited : Visited b) : Step b :=
  match ready.pop? with
  | none => .done (.failed visited)
  | some (t, ready) => .next ⟨t, ready, visited⟩

namespace Machine

variable {b : Bounds}

/-- What the instruction at `t.pc` does with `t`. A literal sentinel matches nothing, not even the
end of the text, and so never looks. -/
def move (m : Machine) (t : Thread) : Move :=
  match m.program.code[t.pc]? with
  | none => .outside
  | some (.literal c) =>
    if c = Text.sentinel then .die
    else
      match m.subject.at? t.pos with
      | none => .outside
      | some x => if x = c then .goto ⟨t.pc + 1, t.pos + 1⟩ else .die
  | some .any =>
    match m.subject.at? t.pos with
    | none => .outside
    | some x => if x = Text.sentinel then .die else .goto ⟨t.pc + 1, t.pos + 1⟩
  | some .accept => .accept
  | some (.jump target) => .goto ⟨target, t.pos⟩
  | some (.split first second) => .fork ⟨first, t.pos⟩ ⟨second, t.pos⟩
  | some .nop => .goto ⟨t.pc + 1, t.pos⟩

/-- Enters the state of the running thread and executes its instruction. -/
def step (m : Machine) (c : Config b) : Step b :=
  if !b.contains c.current then .done (.stopped .outOfRange)
  else if c.visited.contains c.current then .resume c.ready c.visited
  else
    let visited := c.visited.insert c.current
    match m.move c.current with
    | .die => .resume c.ready visited
    | .accept => .done (.accepted c.current.pos)
    | .goto t => .next ⟨t, c.ready, visited⟩
    | .fork first second =>
      if m.threadLimit ≤ c.ready.size then .done (.stopped (.threadLimitExceeded m.threadLimit))
      else .next ⟨first, c.ready.push second, visited⟩
    | .outside => .done (.stopped .outOfRange)

/-- Where the next thread is taken, two units of potential go with each state not visited yet and
one with each thread that waits. -/
theorem potential_resume {ready : Ready} {visited : Visited b} {c : Config b}
    (h : Step.resume ready visited = .next c) :
    c.potential + 1 = 2 * visited.unvisited + ready.size := by
  unfold Step.resume at h
  split at h
  · cases h
  · rename_i hpop
    cases h
    have := Ready.size_of_pop? hpop
    simp only [Config.potential]
    omega

/-- Every step lowers the potential, so that the machine stops. -/
theorem potential_step {m : Machine} {c c' : Config b} (h : m.step c = .next c') :
    c'.potential < c.potential := by
  unfold step at h
  split at h
  · cases h
  rename_i hb
  split at h
  · have := potential_resume h
    simp only [Config.potential] at *
    omega
  rename_i hv
  have hlt := Visited.unvisited_insert_lt (by simpa using hb) (Bool.eq_false_iff.2 hv)
  dsimp only at h
  split at h
  · have := potential_resume h
    simp only [Config.potential] at *
    omega
  · cases h
  · cases h
    simp only [Config.potential]
    omega
  · split at h
    · cases h
    · cases h
      simp only [Config.potential, Ready.push]
      omega
  · cases h

/-- Runs the machine from `c` to its end. -/
def run (m : Machine) (c : Config b) : Attempt b :=
  match _h : m.step c with
  | .next c' => run m c'
  | .done result => result
termination_by c.potential
decreasing_by exact potential_step _h

end Machine

end PatternMachine
