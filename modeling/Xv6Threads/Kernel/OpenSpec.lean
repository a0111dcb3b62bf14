/-
# What the steps of an open do

One case for each effect a step of `OpenSteps` can have, and the connection to the
kernel model: `sys_open` run without interruption is the call that the model makes in
one step.
-/

import Xv6Threads.Kernel.FileSpec
import Xv6Threads.Kernel.OpenSteps

namespace Xv6Threads.Opening

open Lib
open Function (update_eq_self update_idem update_self)

variable {f : FileIdx} {x y : OpenFile} {r : ℤ} {peers : Slot → PeerList} {s : OpenState} {p : Slot}

theorem filealloc_some {files : FileIdx → OpenFile} (h : filealloc files = some f) :
    (files f).ref = 0 := by
  simpa using List.find?_some h

/-- `fileclose` takes one reference, and clears the type with the last. -/
theorem fileclose_ok (h : fileclose x = .ok y) :
    y.ref + 1 = x.ref ∧ (0 < y.ref → y = { x with ref := x.ref - 1 }) := by
  rw [fileclose] at h
  split_ifs at h with hnone hmore
  · rw [← Except.ok.inj h]
    exact ⟨Nat.sub_add_cancel (Nat.le_of_not_lt hnone), fun _ => rfl⟩
  · rw [← Except.ok.inj h]
    refine ⟨by dsimp only; omega, fun hpos => absurd hpos (Nat.lt_irrefl 0)⟩

theorem fileread_ok {v : ℤ} (h : fileread x r = .ok (y, v)) :
    ∃ k, y = { x with off := x.off + k } := by
  rw [fileread] at h
  split_ifs at h
  · exact ⟨0, state_of_ok h⟩
  · split at h
    · exact ⟨0, state_of_ok h⟩
    · exact ⟨r.toNat, state_of_ok h⟩
    · cases h

theorem filewrite_ok {n i : ℕ} {v : ℤ} (h : filewrite x n i r = .ok (y, v)) :
    ∃ k, y = { x with off := x.off + k } := by
  rw [filewrite] at h
  by_cases hw : x.writable = false
  · rw [if_pos hw] at h
    exact ⟨0, state_of_ok h⟩
  · rw [if_neg hw] at h
    split at h
    · exact ⟨0, state_of_ok h⟩
    · exact ⟨i, state_of_ok h⟩
    · cases h

/-- The effects of a step. -/
inductive OpenEffect (peers : Slot → PeerList) (s : OpenState) : OpenEvent → OpenState → Prop
  | same {e : OpenEvent} : OpenEffect peers s e s
  | allocated {p : Slot} {ip : InodeIdx} {omode : BitVec 32} {f : FileIdx}
      (hp : s.phase p = .idle) (hfree : (s.files f).ref = 0) :
      OpenEffect peers s (.filealloc p ip omode)
        (((s.setFile f { s.files f with ref := 1 }).setMaker f
          (some (.opened ip omode 0))).setPhase p (.allocated f ip omode))
  | published {p : Slot} {f : FileIdx} {ip : InodeIdx} {omode : BitVec 32} {tables : FdTables}
      {fd : Fd} (hp : s.phase p = .allocated f ip omode)
      (halloc : fdalloc peers s.tables p f = .ok (some (tables, fd))) :
      OpenEffect peers s (.fdalloc p)
        ({ s with tables := tables }.setPhase p (.opening f ip omode .published))
  | dropped {p : Slot} {f : FileIdx} {ip : InodeIdx} {omode : BitVec 32} {x : OpenFile}
      (hp : s.phase p = .allocated f ip omode) (hclose : fileclose (s.files f) = .ok x) :
      OpenEffect peers s (.fdalloc p) ((s.setFile f x).setPhase p .idle)
  | advanced {p : Slot} {f : FileIdx} {ip : InodeIdx} {omode : BitVec 32} {st : Stage}
      (hp : s.phase p = .opening f ip omode st) :
      OpenEffect peers s (.advance p) (advance s p f ip omode st)
  | moved {p : Slot} {fd : ℤ} {c : FileCall} {n : Fd} {f : FileIdx} {k : ℕ}
      (hp : s.phase p = .idle) (hfd : argfd s.tables p fd = some (n, f)) :
      OpenEffect peers s (.call p fd c)
        (s.moved f { s.files f with off := (s.files f).off + k })
  | duped {p : Slot} {fd : ℤ} {c : FileCall} {n n' : Fd} {f : FileIdx} {tables : FdTables}
      (hp : s.phase p = .idle) (hfd : argfd s.tables p fd = some (n, f))
      (halloc : fdalloc peers s.tables p f = .ok (some (tables, n'))) :
      OpenEffect peers s (.call p fd c)
        { s.setFile f { s.files f with ref := (s.files f).ref + 1 } with tables := tables }
  | closed {p : Slot} {fd : ℤ} {c : FileCall} {n : Fd} {f : FileIdx} {x : OpenFile}
      {tables : FdTables} (hp : s.phase p = .idle) (hfd : argfd s.tables p fd = some (n, f))
      (hclose : fileclose (s.files f) = .ok x)
      (hprop : closeOfileClone peers (setFd s.tables p n none) p n = .ok tables) :
      OpenEffect peers s (.call p fd c) { s.setFile f x with tables := tables }

theorem call_effect {s' : OpenState} {fd : ℤ} {c : FileCall} (hp : s.phase p = .idle)
    (h : call peers s p fd c = .ok (s', r)) :
    OpenEffect peers s (.call p fd c) s' := by
  rw [call] at h
  split at h
  · rw [state_of_ok h]
    exact .same
  · rename_i n f hfd
    cases c with
    | read v =>
      dsimp only at h
      cases hread : fileread (s.files f) v with
      | error e =>
        rw [hread] at h
        cases h
      | ok y =>
        rw [hread] at h
        obtain ⟨k, hk⟩ := fileread_ok hread
        rw [state_of_ok h, hk]
        exact .moved hp hfd
    | write m i v =>
      dsimp only at h
      cases hwrite : filewrite (s.files f) m i v with
      | error e =>
        rw [hwrite] at h
        cases h
      | ok y =>
        rw [hwrite] at h
        obtain ⟨k, hk⟩ := filewrite_ok hwrite
        rw [state_of_ok h, hk]
        exact .moved hp hfd
    | fstat =>
      rw [state_of_ok h]
      exact .same
    | dup =>
      dsimp only at h
      split at h
      · cases h
      · rw [state_of_ok h]
        exact .same
      · rename_i tables n' halloc
        rw [filedup] at h
        split_ifs at h
        · cases h
        · rw [state_of_ok h]
          exact .duped hp hfd halloc
    | close =>
      dsimp only at h
      split at h
      · cases h
      · rename_i x hclose
        split at h
        · cases h
        · rename_i tables hprop
          rw [state_of_ok h]
          exact .closed hp hfd hclose hprop

theorem openStep_effect {s' : OpenState} {e : OpenEvent} (h : OpenStep peers s e s') :
    OpenEffect peers s e s' := by
  cases e with
  | filealloc p ip omode =>
    rw [OpenStep, openNext] at h
    split_ifs at h with hp
    split at h
    · rw [← Option.some.inj h]
      exact .same
    · rename_i f hfind
      rw [← Option.some.inj h]
      exact .allocated hp (filealloc_some hfind)
  | fdalloc p =>
    rw [OpenStep, openNext] at h
    split at h
    · rename_i f ip omode hp
      split at h
      · cases h
      · cases hclose : fileclose (s.files f) with
        | error e =>
          rw [hclose] at h
          cases h
        | ok x =>
          rw [hclose] at h
          rw [← Option.some.inj h]
          exact .dropped hp hclose
      · rename_i tables fd halloc
        rw [← Option.some.inj h]
        exact .published hp halloc
    · cases h
  | advance p =>
    rw [OpenStep, openNext] at h
    split at h
    · rename_i f ip omode st hp
      rw [← Option.some.inj h]
      exact .advanced hp
    · cases h
  | call p fd c =>
    rw [OpenStep, openNext] at h
    split_ifs at h with hp
    cases hcall : call peers s p fd c with
    | error e =>
      rw [hcall] at h
      cases h
    | ok y =>
      rw [hcall] at h
      rw [← Option.some.inj h]
      exact call_effect hp hcall

/-! ## The call in one piece -/

/-- A file as the kernel model sees it. -/
def OpenFile.toFile (x : OpenFile) : File where
  kind :=
    match x.type, x.ip with
    | .inode, some ip => .inode ip
    | .pipe, _ => .pipe
    | _, _ => .none
  ref := x.ref

/-- The steps of one `sys_open`, in order. -/
def openEvents (p : Slot) (ip : InodeIdx) (omode : BitVec 32) : List OpenEvent :=
  [.filealloc p ip omode, .fdalloc p, .advance p, .advance p, .advance p, .advance p, .advance p,
    .advance p, .advance p]

theorem openNext_advance {ip : InodeIdx} {omode : BitVec 32} {st : Stage}
    (hp : s.phase p = .opening f ip omode st) :
    openNext peers s (.advance p) = some (advance s p f ip omode st) := by
  rw [openNext, hp]

/-- What `sys_open` does from `fdalloc` to its end. -/
theorem run_advance (peers : Slot → PeerList) {ip : InodeIdx} {omode : BitVec 32}
    (hp : s.phase p = .opening f ip omode .published) :
    runList (openNext peers) (fun _ _ => True) s
        [.advance p, .advance p, .advance p, .advance p, .advance p, .advance p, .advance p] =
      some ((s.setFile f { s.files f with
        type := .inode
        ip := some ip
        off := 0
        readable := readableOf omode
        writable := writableOf omode }).setPhase p .idle) := by
  have hself : ∀ {t : OpenState} {ph : Phase}, (t.setPhase p ph).phase p = ph :=
    update_self ..
  have hstep : ∀ {t : OpenState} {st : Stage} {es : List OpenEvent},
      t.phase p = .opening f ip omode st →
        runList (openNext peers) (fun _ _ => True) t (.advance p :: es) =
          runList (openNext peers) (fun _ _ => True) (advance t p f ip omode st) es := fun hp =>
    runList_cons trivial (openNext_advance hp)
  rw [hstep hp, advance, hstep hself, advance, hstep hself, advance, hstep hself, advance,
    hstep hself, advance, hstep hself, advance, hstep hself, advance, runList]
  simp only [OpenState.setPhase, OpenState.setFile, update_idem, update_self]

theorem filealloc_of_toFile {files : FileIdx → OpenFile} {ft ft' : Ftable}
    (hfiles : ∀ g, (files g).toFile = ft g) (h : Xv6Threads.filealloc ft = some (ft', f)) :
    filealloc files = some f := by
  rw [Xv6Threads.filealloc] at h
  split at h
  · cases h
  · rename_i g hg
    obtain ⟨-, rfl⟩ := Prod.mk.inj (Option.some.inj h)
    rw [filealloc, ← hg]
    congr 1
    funext i
    rw [← hfiles i]
    rfl

/-- A `sys_open` of the kernel model that gives out a descriptor is the run of its
steps by one process. -/
theorem sysOpen_steps {k k' : Kernel} {w : Walk} {accept : Bool}
    (h : sysOpen k p w accept = .ok (k', r)) (hidle : s.phase p = .idle)
    (htables : s.tables = k.ofiles) (hfiles : ∀ f, (s.files f).toFile = k.ftable f) :
    k'.ofiles = k.ofiles ∨ ∃ ip, ∀ omode, ∃ s',
      runList (openNext k.ofilePeers) (fun _ _ => True) s (openEvents p ip omode) = some s' ∧
        s'.phase = s.phase ∧ s'.tables = k'.ofiles ∧ ∀ f, (s'.files f).toFile = k'.ftable f := by
  rcases sysOpen_ok h with ⟨ic, -, rfl⟩ | ⟨ic, ip, ft, f, ft', ic', -, -, -, rfl⟩ |
    ⟨ic, ip, ft, f, tables, new, -, halloc, hfd, rfl⟩
  · exact .inl rfl
  · exact .inl rfl
  · refine .inr ⟨ip, fun omode => ?_⟩
    have hfind := filealloc_of_toFile hfiles halloc
    obtain ⟨-, rfl⟩ := Xv6Threads.filealloc_some halloc
    rw [← htables] at hfd
    -- the entry of the table taken, then published
    let s₁ := ((s.setFile f { s.files f with ref := 1 }).setMaker f
      (some (.opened ip omode 0))).setPhase p (.allocated f ip omode)
    have hphase : s₁.phase p = .allocated f ip omode := update_self ..
    have htaken : openNext k.ofilePeers s (.filealloc p ip omode) = some s₁ := by
      rw [openNext, if_pos hidle, hfind]
    have hpublished : openNext k.ofilePeers s₁ (.fdalloc p) =
        some ({ s₁ with tables := tables }.setPhase p (.opening f ip omode .published)) := by
      rw [openNext, hphase]
      dsimp only
      rw [show s₁.tables = s.tables from rfl, hfd]
    have hrun : runList (openNext k.ofilePeers) (fun _ _ => True) s (openEvents p ip omode) = _ :=
      (runList_cons trivial htaken).trans <| (runList_cons trivial hpublished).trans <|
        run_advance _ (update_self ..)
    refine ⟨_, hrun, ?_, rfl, ?_⟩
    · simp only [s₁, OpenState.setPhase, OpenState.setFile, OpenState.setMaker,
        update_idem, ← hidle, update_eq_self]
    · intro g
      by_cases hg : g = f
      · subst hg
        simp [OpenFile.toFile, s₁, OpenState.setPhase, OpenState.setFile, OpenState.setMaker]
      · simp [hg, hfiles g, s₁, OpenState.setPhase, OpenState.setFile, OpenState.setMaker]

end Xv6Threads.Opening
