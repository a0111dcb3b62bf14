/-
# The system-call machine

One step is a complete system call by a running process, a turn of a blocked
`wait` or `join`, or a scheduling decision. What the hardware, the disk and the
page allocator decide is part of the step's label, so every step has at most
one outcome and runs can be computed.
-/

import Xv6Threads.Kernel.Proc
import Xv6Threads.Kernel.Sysfile
import Xv6Threads.Lib.Transition

namespace Xv6Threads

open Lib

/-- A system call with its arguments and what its environment decides.
`resume` continues a `wait` or `join` that went to sleep. -/
inductive Call
  | fork (env : SpawnEnv)
  | clone (flags : BitVec 32) (env : SpawnEnv)
  | exec (env : ExecEnv)
  | sbrk (n : BitVec 32) (budget : ℕ)
  | exit
  | wait
  | join (pid : ℤ)
  | resume
  | kill (pid : ℤ)
  | threadkill (pid : ℤ)
  | open (walk : Walk) (accept : Bool)
  | dup (fd : ℤ)
  | pipe (argok page : Bool)
  | close (fd : ℤ)
  | chdir (walk : Walk) (isDir : Bool)

/-- The result of a call that returns. -/
def returned (r : Except Fault (Kernel × ℤ)) : Except Fault (Kernel × Option ℤ) :=
  match r with
  | .error f => .error f
  | .ok (s, n) => .ok (s, some n)

/-- Run one call for process `p`. A call that blocks, and `exit`, return no
value. -/
def syscall (s : Kernel) (p : Slot) : Call → Except Fault (Kernel × Option ℤ)
  | .fork env => returned (fork s p env)
  | .clone flags env => returned (clone s p flags env)
  | .exec env => returned (exec s p env)
  | .sbrk n budget => returned (sysSbrk s p n budget)
  | .exit =>
    match exit s p with
    | .error f => .error f
    | .ok s => .ok (s, none)
  | .wait => waitIter s p
  | .join pid => .ok (joinIter s p pid)
  | .resume => resume s p
  | .kill pid => returned (.ok (kill s pid))
  | .threadkill pid => returned (.ok (threadkill s pid))
  | .open walk accept => returned (sysOpen s p walk accept)
  | .dup fd => returned (sysDup s p fd)
  | .pipe argok page => returned (sysPipe s p argok page)
  | .close fd => returned (sysClose s p fd)
  | .chdir walk isDir => returned (sysChdir s p walk isDir)

/-- The fault a call ended in, if it did. -/
def faultOf {α : Type} : Except Fault α → Option Fault
  | .error f => some f
  | .ok _ => none

/-- The page the allocator hands to `setupkvm` during a call, if it does. -/
def Call.newPgdir : Call → Option PageAddr
  | .fork env => env.pgdir
  | .clone _ env => env.pgdir
  | .exec env => env.pgdir
  | _ => none

/-- Where the kernel must stand for a call to start or go on. -/
def Call.fits : Call → Ctl → Bool
  | .resume, .waiting => true
  | .resume, .joining _ => true
  | .resume, _ => false
  | _, .user => true
  | _, _ => false

/-- A killed process starts no system call but `exit`; `trap` sees to that. -/
def Call.startsKilled : Call → Bool
  | .exit => true
  | .resume => true
  | _ => false

/-- Process `p` can make the call: it is running, stands where the call starts,
and the allocator hands out no page that is still a page directory. -/
def Enabled (s : Kernel) (p : Slot) (c : Call) : Prop :=
  (s.procs p).state = .running ∧ c.fits (s.ctl p) = true ∧
    ((s.procs p).killed = false ∨ c.startsKilled = true) ∧
    (c.newPgdir.all fun d => (s.pgdirs d).isNone) = true

instance (s : Kernel) (p : Slot) (c : Call) : Decidable (Enabled s p c) :=
  inferInstanceAs (Decidable (_ ∧ _ ∧ _ ∧ _))

/-- One step of the machine: a call, or the scheduler running a process or
taking the processor from it. -/
inductive Event
  | call (p : Slot) (c : Call)
  | dispatch (p : Slot)
  | yield (p : Slot)

/-- The state after an event, if the event can happen and nothing faults. -/
def next (s : Kernel) : Event → Option Kernel
  | .call p c => if Enabled s p c then (syscall s p c).toOption.map Prod.fst else none
  | .dispatch p =>
    if (s.procs p).state = .runnable then
      some (s.setProc p { s.procs p with state := .running })
    else none
  | .yield p =>
    if (s.procs p).state = .running then
      some (s.setProc p { s.procs p with state := .runnable })
    else none

/-- The step relation. -/
def Step (s : Kernel) (e : Event) (s' : Kernel) : Prop := next s e = some s'

/-- What a step is, by kind of event. -/
theorem step_cases {s s' : Kernel} {e : Event} (h : Step s e s') :
    (∃ p c r, e = .call p c ∧ Enabled s p c ∧ syscall s p c = .ok (s', r)) ∨
    (∃ p, e = .dispatch p ∧ (s.procs p).state = .runnable ∧
      s' = s.setProc p { s.procs p with state := .running }) ∨
    (∃ p, e = .yield p ∧ (s.procs p).state = .running ∧
      s' = s.setProc p { s.procs p with state := .runnable }) := by
  cases e with
  | call p c =>
    left
    rw [Step, next] at h
    split_ifs at h with hen
    cases hrun : syscall s p c with
    | error f => simp [hrun, Except.toOption] at h
    | ok res =>
      obtain ⟨s'', r⟩ := res
      obtain rfl : s'' = s' := by simpa [hrun, Except.toOption] using h
      exact ⟨p, c, r, rfl, hen, hrun⟩
  | dispatch p =>
    right; left
    rw [Step, next] at h
    split_ifs at h with hst
    exact ⟨p, rfl, hst, (Option.some.inj h).symm⟩
  | yield p =>
    right; right
    rw [Step, next] at h
    split_ifs at h with hst
    exact ⟨p, rfl, hst, (Option.some.inj h).symm⟩

theorem returned_eq_ok {r : Except Fault (Kernel × ℤ)} {s : Kernel} {n : Option ℤ}
    (h : returned r = .ok (s, n)) : ∃ m, r = .ok (s, m) ∧ n = some m := by
  cases r with
  | error f => simp [returned] at h
  | ok res =>
    obtain ⟨s', m⟩ := res
    simp only [returned, Except.ok.injEq, Prod.mk.injEq] at h
    obtain ⟨rfl, rfl⟩ := h
    exact ⟨m, rfl, rfl⟩

theorem returned_eq_error {r : Except Fault (Kernel × ℤ)} {f : Fault}
    (h : returned r = .error f) : r = .error f := by
  cases r with
  | error g => exact congrArg Except.error (Except.error.inj h)
  | ok res => cases h

end Xv6Threads
