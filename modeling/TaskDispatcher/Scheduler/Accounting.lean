import TaskDispatcher.Scheduler.Ledger

/-!
# Counter accounting

A sync belongs to one fiber, and only that fiber and the tasks running on the
sync submit to it.  Then a handle is given back only when its tasks are done, so
its counter stands at the number of those that have not been counted down.
-/

namespace TaskDispatcher.Scheduler

open TaskDispatcher.Library TaskDispatcher.Container

/-- The calls a program makes that uses a sync on the fiber `own` gives for it, and submits to it
from there and from the tasks running on it. -/
def Permitted (own : Nat → Nat) (m : Mem) (f : Nat) : UserCall → Prop
  | .submit sync _ =>
      own sync = f ∨ ∃ t, m.task f = some t ∧ (m.hist.task t.id).sync = some sync
  | .waitFor sync _ => own sync = f
  | .ret => True
  | _ => False

def Disciplined (own : Nat → Nat) (s : State) (l : Label) : Prop :=
  ∀ u, s.pc (s.mem.running l.thread) = .body → l.choice = .call u →
    Permitted own s.mem (s.mem.running l.thread) u

/-! ## What an agent does with a sync -/

inductive SyncRole where
  | none
  | acquires (sync : Nat)
  | submits (sync : Nat)
  | waits (sync : Nat)
  | tests (h sync : Nat)
  | releases (h c sync : Nat)
  | returns (sync : Nat)
  /-- a call that no sync is part of -/
  | foreign

def HandleK.role : HandleK → SyncRole
  | .user => .foreign
  | .submit _ sync => .acquires sync

def WaitCall.role (w : WaitCall) : SyncRole :=
  match w.sync with
  | some sync => .waits sync
  | Option.none => .foreign

def Increment.role (inc : Increment) : SyncRole :=
  match inc.k with
  | .user => .foreign
  | .taskDone _ => .none
  | .submit _ Option.none => .foreign
  | .submit _ (some sync) => .submits sync

def syncRole : PC → SyncRole
  | .freeDeq k _ => k.role
  | .resetCount _ k => k.role
  | .resetSlot _ _ k => k.role
  | .acquireHandle _ k => k.role
  | .increment inc => inc.role
  | .waitStore w => w.role
  | .add w _ _ => w.role
  | .idleDeq (.wait w) _ => w.role
  | .yieldTo _ (.wait w) => w.role
  | .clean (.yielded (.wait w)) => w.role
  | .idleEnq (.yielded (.wait w)) _ _ => w.role
  | .waitDone w => w.role
  | .releaseLoad h target (.waitFor sync) => if target = some 0 then .tests h sync else .foreign
  | .releaseLoad _ _ .user => .foreign
  | .releaseHandle h c (.waitFor sync) => .releases h c sync
  | .releaseHandle _ _ .user => .foreign
  | .freeEnq (.waitFor sync) _ _ => .returns sync
  | .freeEnq .user _ _ => .foreign
  | _ => .none

/-- The syncs, the handles and the tasks. -/
def syncPart (m : Mem) :
    Table (Option Nat) × Table (Option HandleContent) × Nat × Table TaskInfo × Table Nat :=
  (m.syncs, m.handles, m.hist.nextTask, m.hist.task, m.hist.decremented)

/-- What a step of agent `f` does to the syncs. -/
inductive SyncStep (own : Nat → Nat) (s : State) (f : Nat) (m' : Mem) (p' : PC) : Prop where
  | quiet : syncPart m' = syncPart s.mem → syncRole p' = syncRole (s.pc f) →
      (∀ inc, s.pc f ≠ .increment inc) → SyncStep own s f m' p'
  | acquires (sync : Nat) : s.pc f = .body → syncRole p' = .acquires sync →
      syncPart m' = syncPart s.mem → s.mem.syncs sync = none →
      (own sync = f ∨ ∃ t, s.mem.task f = some t ∧ (s.mem.hist.task t.id).sync = some sync) →
      SyncStep own s f m' p'
  | submits (h sync : Nat) (x : HandleContent) : s.pc f = .body →
      syncRole p' = .submits sync → syncPart m' = syncPart s.mem →
      m'.task = s.mem.task → s.mem.syncs sync = some h → s.mem.handles h = some x →
      (own sync = f ∨ ∃ t, s.mem.task f = some t ∧ (s.mem.hist.task t.id).sync = some sync) →
      SyncStep own s f m' p'
  | waits (sync : Nat) : s.pc f = .body → syncRole p' = .waits sync →
      syncPart m' = syncPart s.mem → own sync = f → SyncStep own s f m' p'
  | waited (h sync : Nat) : syncRole (s.pc f) = .waits sync → syncRole p' = .tests h sync →
      syncPart m' = syncPart s.mem → s.mem.syncs sync = some h → SyncStep own s f m' p'
  | tested (h sync : Nat) : syncRole (s.pc f) = .tests h sync → syncRole p' = .none →
      syncPart m' = syncPart s.mem → SyncStep own s f m' p'
  | onTarget (h sync : Nat) (x : HandleContent) : syncRole (s.pc f) = .tests h sync →
      syncRole p' = .releases h x.counterIndex sync → syncPart m' = syncPart s.mem →
      s.mem.handles h = some x → (s.mem.counters x.counterIndex).count = 0 →
      SyncStep own s f m' p'
  | released (h c sync : Nat) (x : HandleContent) : syncRole (s.pc f) = .releases h c sync →
      syncRole p' = .returns sync → s.mem.handles h = some x →
      syncPart m' = syncPart { s.mem with handles := s.mem.handles.set h none } →
      SyncStep own s f m' p'
  | returned (sync : Nat) : syncRole (s.pc f) = .returns sync → syncRole p' = .none →
      syncPart m' = syncPart { s.mem with syncs := s.mem.syncs.set sync none } →
      SyncStep own s f m' p'
  | acquired (c h num sync : Nat) : s.pc f = .acquireHandle c (.submit num sync) →
      syncRole p' = .submits sync → s.mem.handles h = none →
      syncPart m' = syncPart { s.mem with
        syncs := s.mem.syncs.set sync (some h)
        handles := s.mem.handles.set h (some ⟨c, s.mem.hist.nextLife, some sync⟩) } →
      SyncStep own s f m' p'
  | announced (inc : Increment) (num sync : Nat) : s.pc f = .increment inc →
      inc.k = .submit num (some sync) → syncRole p' = .none →
      syncPart m' = syncPart { s.mem with
        hist := s.mem.hist.announce ⟨inc.counter, inc.life, some sync⟩ num } →
      SyncStep own s f m' p'
  | done (inc : Increment) (id : Nat) : s.pc f = .increment inc → inc.k = .taskDone id →
      syncRole p' = .none →
      syncPart m' = syncPart { s.mem with
        hist := { s.mem.hist with decremented := Hist.count s.mem.hist.decremented id } } →
      SyncStep own s f m' p'

section Steps

variable {own : Nat → Nat} {cfg : Config} {s s' : State} {m m' : Mem} {i f : Nat} {ch : Choice}
  {p p' : PC} {l : Label}

theorem syncRole_nextSlot (x : Scan) (j : Nat) : syncRole (nextSlot x j) = .none := by
  unfold nextSlot
  split
  · rfl
  · cases x.k <;> rfl

theorem syncRole_afterClean (k : CleanK) (hk : ∀ w, k ≠ .yielded (.wait w)) :
    syncRole (afterClean k) = .none := by
  rcases k with _ | w | (_ | _)
  · rfl
  · exact absurd rfl (hk w)
  · rfl
  · rfl

theorem exec_sync (hforeign : syncRole (s.pc f) ≠ .foreign)
    (hu : ∀ u, s.pc f = .body → ch = .call u → Permitted own s.mem f u)
    (hx : exec cfg s.mem i f ch (s.pc f) = some (m', p')) : SyncStep own s f m' p' := by
  have hquiet : ∀ p, s.pc f = p → syncPart m' = syncPart s.mem → syncRole p' = syncRole p →
      (∀ inc, p ≠ .increment inc) → SyncStep own s f m' p' :=
    fun p hpc hpart hrole hinc => .quiet hpart (hpc ▸ hrole) (hpc ▸ hinc)
  cases hpc : s.pc f with
  | body =>
      rw [hpc] at hx
      simp only [exec] at hx
      split at hx
      · rename_i u
        have hperm := hu u hpc rfl
        cases u with
        | submit sync num =>
            simp only [userStep] at hx
            split at hx
            · cases hx
            · split at hx
              · next hnone =>
                  cases hx
                  exact .acquires sync hpc rfl rfl hnone hperm
              · next h hsome =>
                  split at hx
                  · next x hh =>
                      cases hx
                      exact .submits h sync x hpc rfl rfl rfl hsome hh hperm
                  · cases hx
        | waitFor sync pinned =>
            simp only [userStep] at hx
            split at hx
            · cases hx
              exact hquiet _ hpc rfl rfl (by simp)
            · split at hx
              · cases hx
                exact .waits sync hpc rfl rfl hperm
              · cases hx
        | ret =>
            simp only [userStep] at hx
            split at hx <;> cases hx <;> exact hquiet _ hpc rfl rfl (by simp)
        | _ => exact absurd hperm id
      · cases hx
  | freeDeq k pc =>
      rw [hpc] at hx
      simp only [exec] at hx
      split at hx <;> cases hx <;> exact hquiet _ hpc rfl rfl (by simp)
  | resetCount c k =>
      rw [hpc] at hx
      cases hx
      exact hquiet _ hpc rfl rfl (by simp)
  | resetSlot c j k =>
      rw [hpc] at hx
      cases hx
      exact hquiet _ hpc rfl (by split <;> rfl) (by simp)
  | acquireHandle c k =>
      rw [hpc] at hx hforeign
      cases k with
      | user => exact absurd rfl hforeign
      | submit num sync =>
          simp only [exec] at hx
          split at hx
          · next h =>
              split at hx
              · cases hx
              · next hnone =>
                  cases hx
                  exact .acquired c h num sync hpc rfl hnone rfl
          · cases hx
  | increment inc =>
      rw [hpc] at hx hforeign
      obtain ⟨c, life, amount, k⟩ := inc
      cases k with
      | user => exact absurd rfl hforeign
      | taskDone id =>
          cases hx
          exact .done _ id hpc rfl rfl rfl
      | submit num sync =>
          cases sync with
          | none => exact absurd rfl hforeign
          | some sync =>
              cases hx
              exact .announced _ num sync hpc rfl rfl rfl
  | add w j pc =>
      rw [hpc] at hx
      obtain ⟨a, r, -, rfl, rfl⟩ := exec_add hx
      rcases r with _ | (_ | _) | _ <;> exact hquiet _ hpc rfl rfl (by simp)
  | scan x j pc =>
      rw [hpc] at hx
      obtain ⟨a, r, -, rfl, rfl⟩ := exec_scan hx
      cases r with
      | skip => exact hquiet _ hpc rfl (syncRole_nextSlot x j) (by simp)
      | _ => exact hquiet _ hpc rfl rfl (by simp)
  | clean k =>
      rw [hpc] at hx
      have hrole : syncRole (afterClean k) = syncRole (.clean k) := by
        rcases k with _ | _ | (_ | _) <;> rfl
      simp only [exec, cleanStep] at hx
      split at hx <;> cases hx
      · exact hquiet _ hpc rfl hrole (by simp)
      · exact hquiet _ hpc rfl (by rcases k with _ | _ | _ <;> rfl) (by simp)
      · exact hquiet _ hpc rfl hrole (by simp)
  | idleEnq k v pc =>
      rw [hpc] at hx
      have hrole : syncRole (afterClean k) = syncRole (.idleEnq k v pc) := by
        rcases k with _ | _ | (_ | _) <;> rfl
      simp only [exec] at hx
      split at hx <;> cases hx
      · exact hquiet _ hpc rfl (by rcases k with _ | _ | _ <;> rfl) (by simp)
      · exact hquiet _ hpc rfl hrole (by simp)
  | yieldTo g k =>
      rw [hpc] at hx
      cases hx
      cases k <;> exact hquiet _ hpc rfl rfl (by simp)
  | idleDeq k pc =>
      rw [hpc] at hx
      simp only [exec] at hx
      cases k <;> split at hx <;> cases hx <;> exact hquiet _ hpc rfl rfl (by simp)
  | waitDone w =>
      have hrole : syncRole (s.pc f) = w.role := by
        rw [hpc]
        rfl
      rw [hpc] at hx
      simp only [exec, afterWait] at hx
      cases hsync : w.sync with
      | none =>
          refine absurd ?_ hforeign
          rw [hrole, WaitCall.role, hsync]
      | some sync =>
          rw [hsync] at hx
          simp only at hx
          cases hh : s.mem.syncs sync with
          | none =>
              rw [hh] at hx
              cases hx
          | some h =>
              rw [hh] at hx
              cases hx
              refine .waited h sync ?_ rfl rfl hh
              rw [hrole, WaitCall.role, hsync]
  | releaseLoad h target k =>
      rw [hpc] at hx
      have hcases : ∃ sync, target = some 0 ∧ k = .waitFor sync := by
        rw [hpc] at hforeign
        cases k with
        | user => exact absurd rfl hforeign
        | waitFor sync =>
            by_cases htarget : target = some 0
            · exact ⟨sync, htarget, rfl⟩
            · exact absurd (if_neg htarget) hforeign
      obtain ⟨sync, rfl, rfl⟩ := hcases
      simp only [exec] at hx
      split at hx
      · cases hx
      · next x hh =>
          split at hx
          · next htarget =>
              cases hx
              refine .onTarget h sync x (by rw [hpc]; rfl) rfl rfl hh ?_
              rcases htarget with hnone | hzero
              · cases hnone
              · exact (Option.some.inj hzero).symm
          · cases hx
            exact .tested h sync (by rw [hpc]; rfl) rfl rfl
  | releaseHandle h c k =>
      rw [hpc] at hx hforeign
      cases k with
      | user => exact absurd rfl hforeign
      | waitFor sync =>
          simp only [exec] at hx
          split at hx
          · cases hx
          · next x hh =>
              split at hx
              · cases hx
                exact .released h c sync x (by rw [hpc]; rfl) rfl hh rfl
              · cases hx
  | freeEnq k c pc =>
      rw [hpc] at hx hforeign
      cases k with
      | user => exact absurd rfl hforeign
      | waitFor sync =>
          simp only [exec] at hx
          split at hx <;> cases hx
          · exact hquiet _ hpc rfl rfl (by simp)
          · exact .returned sync (by rw [hpc]; rfl) rfl rfl
  | pin x j reg t pc =>
      rw [hpc] at hx
      cases pc with
      | lock =>
          simp only [exec, pinStep] at hx
          split at hx <;> cases hx <;> exact hquiet _ hpc rfl rfl (by simp)
      | push =>
          cases hx
          exact hquiet _ hpc rfl rfl (by simp)
      | unlock =>
          cases hx
          exact hquiet _ hpc rfl rfl (by simp)
  | resEnq k v pc =>
      rw [hpc] at hx
      simp only [exec] at hx
      split at hx <;> cases hx
      · exact hquiet _ hpc rfl rfl (by simp)
      · exact hquiet _ hpc (by split <;> rfl) (by cases k <;> rfl) (by simp)
  | getUnlock got =>
      rw [hpc] at hx
      cases hx
      exact hquiet _ hpc rfl (by cases got <;> rfl) (by simp)
  | entry =>
      rw [hpc] at hx
      cases hx
      exact hquiet _ hpc rfl (by split <;> rfl) (by simp)
  | loop =>
      rw [hpc] at hx
      cases hx
      exact hquiet _ hpc rfl (by split <;> rfl) (by simp)
  | _ =>
      rw [hpc] at hx
      simp only [exec, submitNext] at hx
      (repeat' split at hx) <;> cases hx <;> exact hquiet _ hpc rfl rfl (by simp)

/-! ## The invariant -/

/-- What is known of a sync while agent `a` uses it. -/
def RoleOk (own : Nat → Nat) (s : State) (a : Nat) : SyncRole → Prop
  | .none => True
  | .acquires sync => own sync = a ∧ s.mem.syncs sync = none
  | .submits sync =>
      own sync = a ∨ ∃ t, s.mem.task a = some t ∧ (s.mem.hist.task t.id).sync = some sync
  | .waits sync => own sync = a
  | .tests h sync => own sync = a ∧ s.mem.syncs sync = some h
  | .releases h _ sync => own sync = a ∧ s.mem.syncs sync = some h ∧
      ∃ x, s.mem.handles h = some x ∧ x.sync = some sync ∧ unfinished s x.life = ∅
  | .returns sync => own sync = a ∧ ∀ h x, s.mem.handles h = some x → x.sync ≠ some sync
  | .foreign => False

structure AccountInv (own : Nat → Nat) (s : State) : Prop where
  role : ∀ a, RoleOk own s a (syncRole (s.pc a))
  held : ∀ h x, s.mem.handles h = some x → ∃ sync, x.sync = some sync ∧ s.mem.syncs sync = some h
  known : ∀ sync h, s.mem.syncs sync = some h →
    (∃ x, s.mem.handles h = some x ∧ x.sync = some sync) ∨
      syncRole (s.pc (own sync)) = .returns sync

/-- A step only touches the local `task` of the agent that makes it. -/
theorem TaskStep.frame (h : TaskStep s s' f) {a : Nat} (ha : a ≠ f) : s'.mem.task a = s.mem.task a := by
  show taskAt s' (.running a) = taskAt s (.running a)
  cases h with
  | same heq _ => rw [heq]
  | announced inc num sync _ _ _ hother _ => exact hother _ fun n hn => by cases hn
  | queued n pos hm _ => exact hm.other _ (by simp) (by simp)
  | dropped n _ hother _ => exact hother _ (by simp)
  | taken pos hm _ => exact hm.other _ (by simp) (by simp)
  | begun t _ hm _ => exact hm.other _ (by simp) (by simpa using ha)
  | ended t _ _ hm _ => exact hm.other _ (by simpa using ha) (by simp)
  | done t _ _ hother _ => exact hother _ (by simp)

/-- Nobody but a submitter has to do with his own task. -/
theorem RoleOk.congr {a : Nat} {r : SyncRole} (h : RoleOk own s a r)
    (hpart : syncPart s'.mem = syncPart s.mem)
    (htask : (∃ sync, r = .submits sync) → s'.mem.task a = s.mem.task a) : RoleOk own s' a r := by
  simp only [syncPart, Prod.mk.injEq] at hpart
  obtain ⟨hsyncs, hhandles, hnext, hinfo, hdec⟩ := hpart
  have hunfinished := unfinished_congr hnext hinfo hdec
  cases r with
  | submits sync =>
      unfold RoleOk at h ⊢
      rw [hinfo, htask ⟨sync, rfl⟩]
      exact h
  | none => trivial
  | foreign => exact h
  | _ =>
      simp only [RoleOk, hsyncs, hhandles, hunfinished] at h ⊢
      exact h

namespace AccountInv

variable (h : AccountInv own s)

include h

/-- The sync of a handle that is alive. -/
theorem sync_of_handle {k sync : Nat} {x : HandleContent} (hx : s.mem.handles k = some x)
    (hsync : x.sync = some sync) : s.mem.syncs sync = some k := by
  obtain ⟨sync', hsync', hk⟩ := h.held k x hx
  rw [hsync] at hsync'
  exact Option.some.inj hsync' ▸ hk

/-- A sync that its owner is not giving back has a handle that is alive. -/
theorem handle_of_sync {k sync : Nat} (hk : s.mem.syncs sync = some k)
    (hnot : syncRole (s.pc (own sync)) ≠ .returns sync) :
    ∃ x, s.mem.handles k = some x ∧ x.sync = some sync := by
  rcases h.known sync k hk with hlive | hreturns
  · exact hlive
  · exact absurd hreturns hnot

/-- A task that is executed has the handle it was submitted on. -/
theorem handle_of_running (hl : LedgerInv s) (ht : TaskInv s) {a sync : Nat} {t : Task}
    (hrun : s.mem.task a = some t) (hsync : (s.mem.hist.task t.id).sync = some sync) :
    ∃ k x, s.mem.handles k = some x ∧ x.sync = some sync ∧ s.mem.syncs sync = some k ∧
      t.id ∈ unfinished s x.life := by
  have hat : taskAt s (.running a) = some t := hrun
  obtain ⟨hlt, -, -⟩ := ht.known _ t hat
  have hret := (ht.running a t hat).2
  have horder := (ht.order t.id).1
  have hdec : s.mem.hist.decremented t.id = 0 := by omega
  obtain ⟨k, x, hx, -, hlife, hxsync⟩ := hl.live t.id hlt hdec
  exact ⟨k, x, hx, hxsync sync hsync, h.sync_of_handle hx (hxsync sync hsync),
    mem_unfinished.2 ⟨hlt, hlife.symm, hdec⟩⟩

/-- Nobody submits on a handle that its owner is about to give back. -/
theorem nobody_submits (hl : LedgerInv s) (ht : TaskInv s) {a k c sync : Nat} {x : HandleContent}
    (hrole : syncRole (s.pc a) = .releases k c sync) (hx : s.mem.handles k = some x) :
    ¬ Submitting s x.life := by
  obtain ⟨hown, -, y, hy, hysync, hempty⟩ : RoleOk own s a (.releases k c sync) := hrole ▸ h.role a
  obtain rfl := Option.some.inj (hy.symm.trans hx)
  rintro ⟨b, inc, num, sync', hp, hk, hlife⟩
  obtain ⟨j, z, hz, -, hzlife, hzsync⟩ := hl.submits b inc num sync' hp hk
  obtain rfl := hl.lives k j y z hy hz (hlife.symm.trans hzlife.symm)
  obtain rfl := Option.some.inj (hy.symm.trans hz)
  have hok := h.role b
  rw [hp] at hok
  cases sync' with
  | none =>
      simp only [syncRole, Increment.role, hk] at hok
      exact hok
  | some sync' =>
      obtain rfl : sync = sync' := Option.some.inj (hysync.symm.trans (hzsync sync' rfl))
      simp only [syncRole, Increment.role, hk] at hok
      rcases hok with hmine | ⟨t, hrun, htsync⟩
      · rw [← hown, hmine, hp] at hrole
        simp only [syncRole, Increment.role, hk] at hrole
        cases hrole
      · obtain ⟨j', u, hu, -, hj, hmem⟩ := h.handle_of_running hl ht hrun htsync
        rw [Option.some.inj (hj.symm.trans (h.sync_of_handle hy hysync)), hy] at hu
        rw [← Option.some.inj hu, hempty] at hmem
        exact Finset.notMem_empty _ hmem

/-- Whoever may submit to a sync finds its handle alive, unless he is giving it back himself. -/
theorem handle_of_permitted (hl : LedgerInv s) (ht : TaskInv s) {k sync : Nat}
    (hbody : s.pc f = .body) (hk : s.mem.syncs sync = some k)
    (hmay : own sync = f ∨ ∃ t, s.mem.task f = some t ∧ (s.mem.hist.task t.id).sync = some sync) :
    ∃ x, s.mem.handles k = some x ∧ x.sync = some sync := by
  refine h.handle_of_sync hk fun hreturns => ?_
  rcases hmay with hown | ⟨t, hrun, htsync⟩
  · rw [hown, hbody] at hreturns
    cases hreturns
  · obtain ⟨j, x, hx, hxsync, -⟩ := h.handle_of_running hl ht hrun htsync
    have hgone : RoleOk own s (own sync) (.returns sync) := hreturns ▸ h.role (own sync)
    exact hgone.2 j x hx hxsync

/-- Only the owner of a null sync acquires a handle for it. -/
theorem own_of_null (hl : LedgerInv s) (ht : TaskInv s) {sync : Nat}
    (hnone : s.mem.syncs sync = none)
    (hmay : own sync = f ∨ ∃ t, s.mem.task f = some t ∧ (s.mem.hist.task t.id).sync = some sync) :
    own sync = f := by
  rcases hmay with hown | ⟨t, hrun, htsync⟩
  · exact hown
  · obtain ⟨j, x, -, -, hj, -⟩ := h.handle_of_running hl ht hrun htsync
    rw [hj] at hnone
    cases hnone

/-- Whoever may make calls on a sync finds the handle there that was acquired for it. -/
theorem agrees (hl : LedgerInv s) (ht : TaskInv s) {sync : Nat} (hbody : s.pc f = .body)
    (hmay : own sync = f ∨ ∃ t, s.mem.task f = some t ∧ (s.mem.hist.task t.id).sync = some sync) :
    Agrees s sync := by
  intro k x hx
  constructor
  · intro hk
    obtain ⟨y, hy, hysync⟩ := h.handle_of_permitted hl ht hbody hk hmay
    rw [Option.some.inj (hx.symm.trans hy)]
    exact hysync
  · exact h.sync_of_handle hx

/-- A program that uses its syncs from their owners and the tasks on them gives a handle back
only when everything submitted on it is done. -/
theorem kept (hl : LedgerInv s) (ht : TaskInv s) (hd : Disciplined own s l) : Kept s l where
  back k c q x hp hx := by
    have hok := h.role (s.mem.running l.thread)
    rw [hp] at hok
    cases q with
    | user => exact absurd hok id
    | waitFor sync =>
        obtain ⟨-, -, y, hy, -, hempty⟩ := hok
        rw [Option.some.inj (hx.symm.trans hy)]
        exact ⟨hempty, h.nobody_submits hl ht (a := s.mem.running l.thread) (by rw [hp]; rfl) hy⟩
  call u sync hp hu hsync := by
    have hperm := hd u hp hu
    cases u with
    | submit sync' num =>
        cases hsync
        exact h.agrees hl ht hp hperm
    | waitFor sync' pinned =>
        cases hsync
        exact h.agrees hl ht hp (Or.inl hperm)
    | _ => cases hsync

omit h in
theorem noManual (hd : Disciplined own s l) : NoManual s l :=
  fun hp _ _ hu => hd _ hp hu

/-- The syncs, the handles and the tasks stay. -/
theorem same (htask : ∀ a, a ≠ f → m'.task a = s.mem.task a) (hpart : syncPart m' = syncPart s.mem)
    (hrole : RoleOk own ⟨m', s.pc.set f p'⟩ f (syncRole p'))
    (hkeep : ∀ sync, syncRole (s.pc f) = .returns sync → syncRole p' = .returns sync) :
    AccountInv own ⟨m', s.pc.set f p'⟩ := by
  have hpart' := hpart
  simp only [syncPart, Prod.mk.injEq] at hpart'
  obtain ⟨hsyncs, hhandles, -⟩ := hpart'
  have hpc : ∀ a, (s.pc.set f p') a = if a = f then p' else s.pc a := fun a => Table.get_set _ _ _ _
  constructor <;> simp only [hsyncs, hhandles]
  · intro a
    rw [hpc]
    split
    · next ha => exact ha ▸ hrole
    · next ha => exact (h.role a).congr hpart fun _ => htask a ha
  · exact h.held
  · intro sync k hk
    rcases h.known sync k hk with hlive | hreturns
    · exact Or.inl hlive
    · right
      rw [hpc]
      split
      · next ha => exact hkeep sync (ha ▸ hreturns)
      · exact hreturns

/-- The owner gives the handle of a sync back. -/
theorem released (htask : ∀ a, a ≠ f → m'.task a = s.mem.task a) {k c sync : Nat}
    (hrole : syncRole (s.pc f) = .releases k c sync) (hrole' : syncRole p' = .returns sync)
    (hpart : syncPart m' = syncPart { s.mem with handles := s.mem.handles.set k none }) :
    AccountInv own ⟨m', s.pc.set f p'⟩ := by
  obtain ⟨hown, hsync, x, hk, hxsync, -⟩ : RoleOk own s f (.releases k c sync) := hrole ▸ h.role f
  simp only [syncPart, Prod.mk.injEq] at hpart
  obtain ⟨hsyncs, hhandles, hnext, hinfo, hdec⟩ := hpart
  have hunfinished : ∀ life, unfinished ⟨m', s.pc.set f p'⟩ life = unfinished s life :=
    unfinished_congr hnext hinfo hdec
  have hpc : ∀ a, (s.pc.set f p') a = if a = f then p' else s.pc a := fun a => Table.get_set _ _ _ _
  have hback : ∀ j z, (s.mem.handles.set k none) j = some z → j ≠ k ∧ s.mem.handles j = some z := by
    intro j z hj
    rw [Table.get_set] at hj
    split at hj
    · cases hj
    · next hjk => exact ⟨hjk, hj⟩
  have hother : ∀ a, a ≠ f → RoleOk own ⟨m', s.pc.set f p'⟩ a (syncRole (s.pc a)) := by
    intro a ha
    have hold := h.role a
    revert hold
    cases syncRole (s.pc a) with
    | submits sync' =>
        simp only [RoleOk, hinfo, htask a ha]
        exact id
    | releases j c' sync' =>
        simp only [RoleOk, hsyncs, hhandles, hunfinished]
        rintro ⟨hmine, hj, z, hz, hzsync, hrest⟩
        refine ⟨hmine, hj, z, ?_, hzsync, hrest⟩
        rw [Table.get_set_ne]
        · exact hz
        -- two fibers would own the sync
        · rintro rfl
          obtain rfl := Option.some.inj (hz.symm.trans hk)
          obtain rfl := Option.some.inj (hzsync.symm.trans hxsync)
          exact ha (hmine.symm.trans hown)
    | returns sync' =>
        simp only [RoleOk, hhandles]
        rintro ⟨hmine, hnone⟩
        exact ⟨hmine, fun j z hj => hnone j z (hback j z hj).2⟩
    | _ =>
        simp only [RoleOk, hsyncs]
        exact id
  constructor <;> simp only [hsyncs, hhandles]
  · intro a
    rw [hpc]
    split
    · next ha =>
        rw [hrole', ha]
        simp only [RoleOk, hhandles]
        refine ⟨hown, fun j z hj hzsync => ?_⟩
        obtain ⟨hjk, hj⟩ := hback j z hj
        exact hjk (Option.some.inj ((h.sync_of_handle hj hzsync).symm.trans hsync))
    · next ha => exact hother a ha
  · intro j z hj
    exact h.held j z (hback j z hj).2
  · intro sync' j hj
    by_cases heq : sync' = sync
    · right
      rw [heq, hown, hpc, if_pos rfl]
      exact hrole'
    · rcases h.known sync' j hj with ⟨z, hz, hzsync⟩ | hreturns
      · refine Or.inl ⟨z, ?_, hzsync⟩
        rw [Table.get_set_ne]
        · exact hz
        · rintro rfl
          obtain rfl := Option.some.inj (hz.symm.trans hk)
          exact heq (Option.some.inj (hzsync.symm.trans hxsync))
      · right
        rw [hpc, if_neg]
        · exact hreturns
        · intro hf
          rw [hf, hrole] at hreturns
          cases hreturns

/-- The sync becomes null. -/
theorem returned (htask : ∀ a, a ≠ f → m'.task a = s.mem.task a) {sync : Nat}
    (hrole : syncRole (s.pc f) = .returns sync) (hrole' : syncRole p' = .none)
    (hpart : syncPart m' = syncPart { s.mem with syncs := s.mem.syncs.set sync none }) :
    AccountInv own ⟨m', s.pc.set f p'⟩ := by
  obtain ⟨hown, hgone⟩ : RoleOk own s f (.returns sync) := hrole ▸ h.role f
  simp only [syncPart, Prod.mk.injEq] at hpart
  obtain ⟨hsyncs, hhandles, hnext, hinfo, hdec⟩ := hpart
  have hunfinished : ∀ life, unfinished ⟨m', s.pc.set f p'⟩ life = unfinished s life :=
    unfinished_congr hnext hinfo hdec
  have hpc : ∀ a, (s.pc.set f p') a = if a = f then p' else s.pc a := fun a => Table.get_set _ _ _ _
  have hset : ∀ a sync', a ≠ f → own sync' = a →
      (s.mem.syncs.set sync none) sync' = s.mem.syncs sync' := by
    intro a sync' ha hmine
    rw [Table.get_set_ne]
    rintro rfl
    exact ha (hmine.symm.trans hown)
  have hother : ∀ a, a ≠ f → RoleOk own ⟨m', s.pc.set f p'⟩ a (syncRole (s.pc a)) := by
    intro a ha
    have hold := h.role a
    revert hold
    cases syncRole (s.pc a) with
    | acquires sync' =>
        simp only [RoleOk, hsyncs]
        rintro ⟨hmine, hnone⟩
        exact ⟨hmine, (hset a sync' ha hmine).trans hnone⟩
    | submits sync' =>
        simp only [RoleOk, hinfo, htask a ha]
        exact id
    | tests k sync' =>
        simp only [RoleOk, hsyncs]
        rintro ⟨hmine, hk⟩
        exact ⟨hmine, (hset a sync' ha hmine).trans hk⟩
    | releases k c sync' =>
        simp only [RoleOk, hsyncs, hhandles, hunfinished]
        rintro ⟨hmine, hk, hrest⟩
        exact ⟨hmine, (hset a sync' ha hmine).trans hk, hrest⟩
    | _ =>
        simp only [RoleOk, hhandles]
        exact id
  constructor <;> simp only [hsyncs, hhandles]
  · intro a
    rw [hpc]
    split
    · rw [hrole']
      trivial
    · next ha => exact hother a ha
  · intro k x hk
    obtain ⟨sync', hxsync, hk'⟩ := h.held k x hk
    refine ⟨sync', hxsync, ?_⟩
    rw [Table.get_set_ne]
    · exact hk'
    · rintro rfl
      exact hgone k x hk hxsync
  · intro sync' k hk
    rw [Table.get_set] at hk
    split at hk
    · cases hk
    · next hne =>
      rcases h.known sync' k hk with hlive | hreturns
      · exact Or.inl hlive
      · right
        rw [hpc, if_neg]
        · exact hreturns
        · intro hf
          rw [hf, hrole] at hreturns
          cases hreturns
          exact hne rfl

/-- A sync gets a new handle. -/
theorem acquired (htask : ∀ a, a ≠ f → m'.task a = s.mem.task a) {c k sync : Nat}
    (hrole : syncRole (s.pc f) = .acquires sync) (hrole' : syncRole p' = .submits sync)
    (hk : s.mem.handles k = none)
    (hpart : syncPart m' = syncPart { s.mem with
      syncs := s.mem.syncs.set sync (some k)
      handles := s.mem.handles.set k (some ⟨c, s.mem.hist.nextLife, some sync⟩) }) :
    AccountInv own ⟨m', s.pc.set f p'⟩ := by
  obtain ⟨hown, hnone⟩ : RoleOk own s f (.acquires sync) := hrole ▸ h.role f
  simp only [syncPart, Prod.mk.injEq] at hpart
  obtain ⟨hsyncs, hhandles, hnext, hinfo, hdec⟩ := hpart
  have hunfinished : ∀ life, unfinished ⟨m', s.pc.set f p'⟩ life = unfinished s life :=
    unfinished_congr hnext hinfo hdec
  have hpc : ∀ a, (s.pc.set f p') a = if a = f then p' else s.pc a := fun a => Table.get_set _ _ _ _
  have hne : ∀ j z, s.mem.handles j = some z → j ≠ k := by
    rintro j z hj rfl
    rw [hk] at hj
    cases hj
  have hset : ∀ a sync', a ≠ f → own sync' = a →
      (s.mem.syncs.set sync (some k)) sync' = s.mem.syncs sync' := by
    intro a sync' ha hmine
    rw [Table.get_set_ne]
    rintro rfl
    exact ha (hmine.symm.trans hown)
  have hback : ∀ j z, (s.mem.handles.set k (some ⟨c, s.mem.hist.nextLife, some sync⟩)) j = some z →
      j = k ∧ z.sync = some sync ∨ s.mem.handles j = some z := by
    intro j z hj
    rw [Table.get_set] at hj
    split at hj
    · next hjk => exact Or.inl ⟨hjk, by rw [← Option.some.inj hj]⟩
    · exact Or.inr hj
  have hother : ∀ a, a ≠ f → RoleOk own ⟨m', s.pc.set f p'⟩ a (syncRole (s.pc a)) := by
    intro a ha
    have hold := h.role a
    revert hold
    cases syncRole (s.pc a) with
    | acquires sync' =>
        simp only [RoleOk, hsyncs]
        rintro ⟨hmine, hnone'⟩
        exact ⟨hmine, (hset a sync' ha hmine).trans hnone'⟩
    | submits sync' =>
        simp only [RoleOk, hinfo, htask a ha]
        exact id
    | tests j sync' =>
        simp only [RoleOk, hsyncs]
        rintro ⟨hmine, hj⟩
        exact ⟨hmine, (hset a sync' ha hmine).trans hj⟩
    | releases j c' sync' =>
        simp only [RoleOk, hsyncs, hhandles, hunfinished]
        rintro ⟨hmine, hj, z, hz, hrest⟩
        exact ⟨hmine, (hset a sync' ha hmine).trans hj, z,
          (Table.get_set_ne _ _ (hne j z hz)).trans hz, hrest⟩
    | returns sync' =>
        simp only [RoleOk, hhandles]
        rintro ⟨hmine, hgone⟩
        refine ⟨hmine, fun j z hj hzsync => ?_⟩
        rcases hback j z hj with ⟨-, heq⟩ | hold
        · obtain rfl := Option.some.inj (heq.symm.trans hzsync)
          exact ha (hmine.symm.trans hown)
        · exact hgone j z hold hzsync
    | _ =>
        simp only [RoleOk]
        exact id
  constructor <;> simp only [hsyncs, hhandles]
  · intro a
    rw [hpc]
    split
    · next ha =>
        rw [hrole', ha]
        exact Or.inl hown
    · next ha => exact hother a ha
  · intro j z hj
    rcases hback j z hj with ⟨rfl, hzsync⟩ | hold
    · exact ⟨sync, hzsync, Table.get_set_self _ _ _⟩
    · obtain ⟨sync', hzsync, hj'⟩ := h.held j z hold
      refine ⟨sync', hzsync, ?_⟩
      rw [Table.get_set_ne]
      · exact hj'
      · rintro rfl
        rw [hnone] at hj'
        cases hj'
  · intro sync' j hj
    rw [Table.get_set] at hj
    split at hj
    · next heq =>
        obtain rfl := Option.some.inj hj
        exact Or.inl ⟨_, Table.get_set_self _ _ _, by rw [heq]⟩
    · rcases h.known sync' j hj with ⟨z, hz, hzsync⟩ | hreturns
      · exact Or.inl ⟨z, (Table.get_set_ne _ _ (hne j z hz)).trans hz, hzsync⟩
      · right
        rw [hpc, if_neg]
        · exact hreturns
        · intro hf
          rw [hf, hrole] at hreturns
          cases hreturns

/-- The tasks change, and nobody's handle or sync. -/
theorem counted (htask : ∀ a, a ≠ f → m'.task a = s.mem.task a) (hrole' : syncRole p' = .none)
    (hnot : ∀ sync, syncRole (s.pc f) ≠ .returns sync) (hsyncs : m'.syncs = s.mem.syncs)
    (hhandles : m'.handles = s.mem.handles)
    (hinfo : ∀ a t, s.mem.task a = some t → m'.hist.task t.id = s.mem.hist.task t.id)
    (hempty : ∀ a k c sync x, a ≠ f → syncRole (s.pc a) = .releases k c sync →
      s.mem.handles k = some x → unfinished s x.life = ∅ →
        unfinished ⟨m', s.pc.set f p'⟩ x.life = ∅) : AccountInv own ⟨m', s.pc.set f p'⟩ := by
  have hpc : ∀ a, (s.pc.set f p') a = if a = f then p' else s.pc a := fun a => Table.get_set _ _ _ _
  have hother : ∀ a, a ≠ f → RoleOk own ⟨m', s.pc.set f p'⟩ a (syncRole (s.pc a)) := by
    intro a ha
    have hold := h.role a
    have hrelease := hempty a
    revert hold hrelease
    cases syncRole (s.pc a) with
    | submits sync' =>
        simp only [RoleOk, htask a ha]
        rintro (hmine | ⟨t, hat, htsync⟩) -
        · exact Or.inl hmine
        · exact Or.inr ⟨t, hat, by rw [hinfo a t hat]; exact htsync⟩
    | releases j c sync' =>
        simp only [RoleOk, hsyncs, hhandles]
        rintro ⟨hmine, hj, x, hx, hxsync, hnone⟩ hrelease
        exact ⟨hmine, hj, x, hx, hxsync, hrelease j c sync' x ha rfl hx hnone⟩
    | _ =>
        simp only [RoleOk, hsyncs, hhandles]
        exact fun hold _ => hold
  constructor <;> simp only [hsyncs, hhandles]
  · intro a
    rw [hpc]
    split
    · rw [hrole']
      trivial
    · next ha => exact hother a ha
  · exact h.held
  · intro sync' k hk
    rcases h.known sync' k hk with hlive | hreturns
    · exact Or.inl hlive
    · right
      rw [hpc, if_neg]
      · exact hreturns
      · intro hf
        rw [hf] at hreturns
        exact hnot sync' hreturns

end AccountInv

end Steps

section Steps

variable {own : Nat → Nat} {cfg : Config} {s s' : State} {m' : Mem} {i f : Nat} {ch : Choice}
  {p' : PC} {l : Label}

theorem increment_of_submits {p : PC} {sync : Nat} (h : syncRole p = .submits sync) :
    ∃ inc, p = .increment inc := by
  cases p with
  | increment inc => exact ⟨inc, rfl⟩
  | freeDeq k pc => cases k <;> cases h
  | resetCount d k => cases k <;> cases h
  | resetSlot d j k => cases k <;> cases h
  | acquireHandle d k => cases k <;> cases h
  | waitStore w =>
      simp only [syncRole, WaitCall.role] at h
      split at h <;> cases h
  | add w j pc =>
      simp only [syncRole, WaitCall.role] at h
      split at h <;> cases h
  | waitDone w =>
      simp only [syncRole, WaitCall.role] at h
      split at h <;> cases h
  | idleDeq k pc =>
      cases k <;> simp only [syncRole, WaitCall.role] at h <;> (try split at h) <;> cases h
  | yieldTo g k =>
      cases k <;> simp only [syncRole, WaitCall.role] at h <;> (try split at h) <;> cases h
  | clean k =>
      rcases k with _ | _ | _ <;> simp only [syncRole, WaitCall.role] at h <;> (try split at h) <;>
        cases h
  | idleEnq k v pc =>
      rcases k with _ | _ | _ <;> simp only [syncRole, WaitCall.role] at h <;> (try split at h) <;>
        cases h
  | releaseLoad j target k =>
      cases k <;> simp only [syncRole] at h <;> (try split at h) <;> cases h
  | releaseHandle j d k => cases k <;> cases h
  | freeEnq k d pc => cases k <;> cases h
  | _ => cases h

namespace AccountInv

theorem step (h : AccountInv own s) (hl : LedgerInv s) (hq : QueueInv s) (ht : TaskInv s)
    (hd : Disciplined own s l) (hs : Scheduler.step cfg s l = some s') : AccountInv own s' := by
  obtain ⟨-, -, m', p', hx, rfl⟩ := step_eq_some.1 hs
  have htask : ∀ a, a ≠ s.mem.running l.thread → m'.task a = s.mem.task a :=
    fun a ha => (exec_taskStep hq ht.formed hx).frame ha
  have hrole := h.role (s.mem.running l.thread)
  have hforeign : syncRole (s.pc (s.mem.running l.thread)) ≠ .foreign := by
    intro heq
    rw [heq] at hrole
    exact hrole
  -- a call that begins, or an access of the owner, gives no sync back
  have hbody : s.pc (s.mem.running l.thread) = .body →
      ∀ sync, syncRole (s.pc (s.mem.running l.thread)) ≠ .returns sync := by
    intro hp sync hreturns
    rw [hp] at hreturns
    cases hreturns
  have hcounts : ∀ inc, s.pc (s.mem.running l.thread) = .increment inc →
      ∀ sync, syncRole (s.pc (s.mem.running l.thread)) ≠ .returns sync := by
    intro inc hp sync hreturns
    rw [hp] at hreturns
    simp only [syncRole, Increment.role] at hreturns
    split at hreturns <;> cases hreturns
  cases exec_sync hforeign hd hx with
  | quiet hpart hsame hinc =>
      refine h.same htask hpart ?_ fun sync hreturns => hsame.trans hreturns
      rw [hsame]
      refine hrole.congr hpart ?_
      rintro ⟨sync, hsubmits⟩
      obtain ⟨inc, hp⟩ := increment_of_submits hsubmits
      exact absurd hp (hinc inc)
  | acquires sync hp hrole' hpart hnone hmay =>
      refine h.same htask hpart ?_ fun sync' hreturns => absurd hreturns (hbody hp sync')
      rw [hrole']
      have hsyncs : m'.syncs = s.mem.syncs := congrArg Prod.fst hpart
      exact ⟨h.own_of_null hl ht hnone hmay, hsyncs ▸ hnone⟩
  | submits k sync x hp hrole' hpart hsametask _ _ hmay =>
      refine h.same htask hpart ?_ fun sync' hreturns => absurd hreturns (hbody hp sync')
      rw [hrole']
      simp only [syncPart, Prod.mk.injEq] at hpart
      obtain ⟨-, -, -, hinfo, -⟩ := hpart
      simp only [RoleOk, hinfo, hsametask]
      exact hmay
  | waits sync hp hrole' hpart hown =>
      refine h.same htask hpart ?_ fun sync' hreturns => absurd hreturns (hbody hp sync')
      rw [hrole']
      exact hown
  | waited k sync hbefore hrole' hpart hk =>
      rw [hbefore] at hrole
      refine h.same htask hpart ?_ fun sync' hreturns => ?_
      · rw [hrole']
        have hsyncs : m'.syncs = s.mem.syncs := congrArg Prod.fst hpart
        exact ⟨hrole, hsyncs ▸ hk⟩
      · rw [hbefore] at hreturns
        cases hreturns
  | tested k sync hbefore hrole' hpart =>
      refine h.same htask hpart ?_ fun sync' hreturns => ?_
      · rw [hrole']
        trivial
      · rw [hbefore] at hreturns
        cases hreturns
  | onTarget k sync x hbefore hrole' hpart hx' hzero =>
      rw [hbefore] at hrole
      obtain ⟨hown, hk⟩ := hrole
      refine h.same htask hpart ?_ fun sync' hreturns => ?_
      · rw [hrole']
        have hempty : unfinished s x.life = ∅ := by
          have hcount := hl.count k x hx'
          rw [hzero] at hcount
          exact Finset.card_eq_zero.1 (by omega)
        obtain ⟨y, hy, hysync⟩ := h.handle_of_sync hk (by rw [hown, hbefore]; simp)
        obtain rfl := Option.some.inj (hy.symm.trans hx')
        have hok : RoleOk own s (s.mem.running l.thread) (.releases k y.counterIndex sync) :=
          ⟨hown, hk, y, hy, hysync, hempty⟩
        refine hok.congr hpart ?_
        rintro ⟨sync', hsubmits⟩
        cases hsubmits
      · rw [hbefore] at hreturns
        cases hreturns
  | released k c sync x hbefore hrole' _ hpart => exact h.released htask hbefore hrole' hpart
  | returned sync hbefore hrole' hpart => exact h.returned htask hbefore hrole' hpart
  | acquired c k num sync hp hrole' hk hpart =>
      exact h.acquired htask (by rw [hp]; rfl) hrole' hk hpart
  | announced inc num sync hp hk hrole' hpart =>
      have hinfo := TaskInv.announce_task s.mem.hist ⟨inc.counter, inc.life, some sync⟩ num
      rw [Hist.announce_eq] at hpart
      simp only [syncPart, Prod.mk.injEq] at hpart
      obtain ⟨hsyncs, hhandles, hnext, hnewinfo, hdec⟩ := hpart
      have hunfinished := unfinished_announced
        ⟨m', s.pc.set (s.mem.running l.thread) p'⟩ ht hnext hnewinfo hdec
      refine h.counted htask hrole' (hcounts inc hp) hsyncs hhandles (fun a t hat => ?_) ?_
      · have hlt := (ht.known (.running a) t hat).1
        rw [hnewinfo, hinfo, if_neg (by omega)]
      · intro a j c sync' x _ hreleases hx' hempty
        rw [hunfinished, if_neg]
        · exact hempty
        · exact fun heq => h.nobody_submits hl ht hreleases hx'
            ⟨_, inc, num, some sync, hp, hk, heq.symm⟩
  | done inc n hp hk hrole' hpart =>
      simp only [syncPart, Prod.mk.injEq] at hpart
      obtain ⟨hsyncs, hhandles, hnext, hinfo, hdec⟩ := hpart
      have hunfinished := unfinished_done
        ⟨m', s.pc.set (s.mem.running l.thread) p'⟩ hnext hinfo hdec
      refine h.counted htask hrole' (hcounts inc hp) hsyncs hhandles (fun a t hat => by rw [hinfo]) ?_
      intro a j c sync' x _ _ _ hempty
      rw [hunfinished, hempty, Finset.erase_empty]

theorem start (own : Nat → Nat) (cfg : Config) : AccountInv own (start cfg) := by
  have hpc : ∀ a, syncRole ((Scheduler.start cfg).pc a) = .none := by
    intro a
    rw [start_pc]
    split
    · rfl
    · split <;> rfl
  constructor
  · intro a
    rw [hpc]
    trivial
  · intro k x hk
    cases hk
  · intro sync k hk
    cases hk

end AccountInv

end Steps

/-! ## Every run -/

section Runs

variable {own : Nat → Nat} {cfg : Config} {s s' : State} {f g n : Nat} {l : Label}

/-- Fiber `f` has taken the task `n` out of the queue and not counted it down. -/
def Holds (s : State) (f n : Nat) : Prop :=
  ∃ t, (taskAt s (.taken f) = some t ∨ taskAt s (.running f) = some t ∨
    taskAt s (.ended f) = some t) ∧ t.id = n

theorem endedTask_eq_some {p : PC} {t : Task} (h : endedTask p = some t) :
    ∃ inc, p = .increment inc ∧ inc.k = .taskDone t.id := by
  unfold endedTask at h
  split at h
  · cases h
    exact ⟨_, rfl, rfl⟩
  · cases h

theorem endedTask_increment {inc : Increment} (hk : inc.k = .taskDone n) :
    endedTask (.increment inc) = some ⟨inc.counter, n, inc.life⟩ := by
  obtain ⟨c, life, amount, k⟩ := inc
  obtain rfl : k = .taskDone n := hk
  rfl

/-- Every place with the task `n` is one that fiber `f` has after taking it. -/
def HeldBy (s : State) (f n : Nat) : Prop :=
  n < s.mem.hist.nextTask ∧ ∀ P t, taskAt s P = some t → t.id = n →
    P = .taken f ∨ P = .running f ∨ P = .ended f

theorem HeldBy.mono (h : HeldBy s f n) (hnext : s'.mem.hist.nextTask = s.mem.hist.nextTask)
    (hsub : ∀ P t, taskAt s' P = some t → taskAt s P = some t) : HeldBy s' f n :=
  ⟨hnext ▸ h.1, fun P t hP hid => h.2 P t (hsub P t hP) hid⟩

/-- A task that has been taken stays with the fiber that took it. -/
theorem HeldBy.moved (h : HeldBy s f n) {P Q : TaskPlace} (hm : TaskMoved s s' P Q)
    (hnext : s'.mem.hist.nextTask = s.mem.hist.nextTask)
    (hPQ : P = .taken f ∨ P = .running f ∨ P = .ended f →
      Q = .taken f ∨ Q = .running f ∨ Q = .ended f) : HeldBy s' f n := by
  refine ⟨hnext ▸ h.1, fun R t hR hid => ?_⟩
  rcases hm.source hR with ⟨rfl, hold⟩ | ⟨-, -, hold⟩
  · exact hPQ (h.2 P t hold hid)
  · exact h.2 R t hold hid

theorem HeldBy.step (h : HeldBy s f n) (hq : QueueInv s) (ht : TaskInv s)
    (hs : Scheduler.step cfg s l = some s') : HeldBy s' f n := by
  obtain ⟨-, -, m', p', hx, rfl⟩ := step_eq_some.1 hs
  cases exec_taskStep hq ht.formed hx with
  | same heq hpart => exact h.mono (congrArg Prod.fst hpart) fun P t hP => heq ▸ hP
  | announced inc num sync _ _ hnew hother hhist =>
      have hnext : m'.hist.nextTask = s.mem.hist.nextTask + num := by
        rw [show m'.hist = _ from hhist, Hist.announce_eq]
      refine ⟨hnext ▸ Nat.lt_add_right num h.1, fun P t hP hid => ?_⟩
      -- the new tasks have other numbers
      have hlt := h.1
      refine h.2 P t ?_ hid
      rw [← hother P]
      · exact hP
      · rintro j rfl
        by_contra hin
        rw [hnew j (by omega) (by omega)] at hP
        cases hP
        simp only at hid
        omega
  | queued j pos hm hpart => exact h.moved hm (congrArg Prod.fst hpart) (by simp)
  | dropped j hgone hother hpart =>
      refine h.mono (congrArg Prod.fst hpart) fun P t hP => ?_
      by_cases hPj : P = .submitting (s.mem.running l.thread) j
      · rw [hPj, hgone] at hP
        cases hP
      · rwa [hother P hPj] at hP
  | taken pos hm hpart => exact h.moved hm (congrArg Prod.fst hpart) (by simp)
  | begun t _ hm hhist =>
      refine h.moved hm (by rw [hhist]) ?_
      rintro (heq | heq | heq) <;> cases heq
      exact Or.inr (Or.inl rfl)
  | ended t _ _ hm hhist =>
      refine h.moved hm (by rw [hhist]) ?_
      rintro (heq | heq | heq) <;> cases heq
      exact Or.inr (Or.inr rfl)
  | done t _ hgone hother hhist =>
      refine h.mono (by rw [hhist]) fun P u hP => ?_
      by_cases hPf : P = .ended (s.mem.running l.thread)
      · rw [hPf, hgone] at hP
        cases hP
      · rwa [hother P hPf] at hP

structure TaskState (own : Nat → Nat) (cfg : Config) (s : State) : Prop extends
    LedgerState cfg s where
  account : AccountInv own s

theorem TaskState.kept (h : TaskState own cfg s) (hd : Disciplined own s l) :
    Kept s l ∧ NoManual s l :=
  ⟨h.account.kept h.ledger h.task hd, AccountInv.noManual hd⟩

theorem TaskState.step (h : TaskState own cfg s) (hd : Disciplined own s l)
    (hs : Scheduler.step cfg s l = some s') : TaskState own cfg s' where
  toLedgerState := h.toLedgerState.step (h.kept hd).1 (h.kept hd).2 hs
  account := h.account.step h.ledger h.queue h.task hd hs

/-- Whether a call keeps to the syncs of the fiber that makes it. -/
def disciplined (own : Nat → Nat) (s : State) (l : Label) : Bool :=
  match l.choice with
  | .call u => permits (s.mem.running l.thread) u
  | _ => true
where
  permits (f : Nat) : UserCall → Bool
  | .submit sync _ => own sync == f ||
      (s.mem.task f).any fun t => (s.mem.hist.task t.id).sync == some sync
  | .waitFor sync _ => own sync == f
  | .ret => true
  | _ => false

theorem Disciplined.of_disciplined (h : disciplined own s l = true) : Disciplined own s l := by
  intro u _ hu
  unfold disciplined at h
  rw [hu] at h
  cases u with
  | submit sync num =>
      simp only [disciplined.permits, Bool.or_eq_true, beq_iff_eq, Option.any_eq_true] at h
      exact h
  | waitFor sync pinned => exact beq_iff_eq.1 h
  | ret => trivial
  | _ => cases h

/-- The main task submits a task and waits for it on thread `0`.  The task
submits another one on the same sync, both end, and the wait returns. -/
def nestedSubmitLabels : List Label :=
  goes 0 7 ++ calls 0 (.submit 0 1) 38 ++ [⟨0, .handle 0⟩] ++ goes 0 38 ++
    calls 0 (.waitFor 0 true) 28 ++ calls 0 (.submit 0 1) 40 ++ calls 0 .ret 46 ++ calls 0 .ret 61

end Runs

end TaskDispatcher.Scheduler
