import Pergrep.Index.Publish
/-!
# PublishSpec — what is published is whole

`Inv` is what holds in every state of a run of orderly steps: files have one name, a saver's file is its own and holds
what the saver has got to, and the target is what it was or one save's body with its checksum.  A step is orderly unless
a saver starts while another of its process is under way, or opens its temporary again and does not find it, or a loader
takes the target for a temporary (`Orderly`).
-/
namespace Pergrep
namespace Publish

open Runs

/-- **The contract of publication**: the target is absent only if it never was there, or its content is what it was or
some save's body and the checksum of that body; and a save that reports success published its own. -/
structure Safe (prev : Option Bytes) (s : Sys) : Prop where
  target : ∀ c, s.content = some c → prev = some c ∨ ∃ i, c = (s.savers i).body ++ trailer (s.savers i).body
  kept : s.content = none → prev = none
  success : ∀ i c, (s.savers i).phase = .done c → c = (s.savers i).body ++ trailer (s.savers i).body

def SaverOk (s : Sys) (v : Saver) : Prop :=
  match v.phase with
  | .writing fd off => off ≤ v.body.length ∧ s.inode fd = v.body.take off
  | .closed => ∀ k, s.temp v.pid = some k → s.inode k = v.body
  | .hashed c => c = trailer v.body ∧ ∀ k, s.temp v.pid = some k → s.inode k = v.body
  | .reopened fd c => c = trailer v.body ∧ s.inode fd = v.body
  | .appended => ∀ k, s.temp v.pid = some k → s.inode k = v.body ++ trailer v.body
  | .done c => c = v.body ++ trailer v.body
  | _ => True

/-- The file a saver works on: the one it has open, or the one under its temporary's name. -/
def Holds (s : Sys) (v : Saver) (k : Nat) : Prop :=
  v.phase.fd = some k ∨ (v.phase.active = true ∧ s.temp v.pid = some k)

structure Inv (prev : Option Bytes) (s : Sys) : Prop where
  exclusive : ∀ i j, (s.savers i).phase.active = true → (s.savers j).phase.active = true →
    (s.savers i).pid = (s.savers j).pid → i = j
  temp_inj : ∀ p q k, s.temp p = some k → s.temp q = some k → p = q
  temp_lt : ∀ p k, s.temp p = some k → k < s.inodes.length
  temp_target : ∀ p k, s.temp p = some k → s.target ≠ some k
  target_lt : ∀ k, s.target = some k → k < s.inodes.length
  fd_lt : ∀ i k, (s.savers i).phase.fd = some k → k < s.inodes.length
  fd_target : ∀ i k, (s.savers i).phase.fd = some k → s.target ≠ some k
  fd_temp : ∀ i k p, (s.savers i).phase.fd = some k → s.temp p = some k → p = (s.savers i).pid
  temp_fd : ∀ i k l, (s.savers i).phase.fd = some k → s.temp (s.savers i).pid = some l → l = k
  fd_inj : ∀ i j k, (s.savers i).phase.fd = some k → (s.savers j).phase.fd = some k → i = j
  savers : ∀ i, SaverOk s (s.savers i)
  target : ∀ c, s.content = some c → prev = some c ∨ ∃ i, c = (s.savers i).body ++ trailer (s.savers i).body
  kept : s.target = none → prev = none

theorem Phase.active_of_fd {ph : Phase} {k : Nat} (h : ph.fd = some k) : ph.active = true := by
  cases ph <;> first | rfl | cases h

theorem SaverOk.frame {s t : Sys} {v : Saver} (h : SaverOk s v)
    (htemp : ∀ k, v.phase.active = true → t.temp v.pid = some k → s.temp v.pid = some k)
    (hinode : ∀ k, Holds t v k → t.inode k = s.inode k) : SaverOk t v := by
  obtain ⟨pid, body, ph⟩ := v
  cases ph with
  | writing fd off => exact ⟨h.1, (hinode fd (Or.inl rfl)).trans h.2⟩
  | closed => exact fun k hk => (hinode k (Or.inr ⟨rfl, hk⟩)).trans (h k (htemp k rfl hk))
  | hashed c => exact ⟨h.1, fun k hk => (hinode k (Or.inr ⟨rfl, hk⟩)).trans (h.2 k (htemp k rfl hk))⟩
  | reopened fd c => exact ⟨h.1, (hinode fd (Or.inl rfl)).trans h.2⟩
  | appended => exact fun k hk => (hinode k (Or.inr ⟨rfl, hk⟩)).trans (h k (htemp k rfl hk))
  | done c => exact h
  | idle | removed | failed | crashed => trivial

section
variable {prev : Option Bytes} {s : Sys}

theorem Inv.holds_fd (h : Inv prev s) {i j k : Nat} (hi : Holds s (s.savers i) k) (hj : (s.savers j).phase.fd = some k) :
    j = i := by
  rcases hi with hi | ⟨ha, hi⟩
  · exact h.fd_inj j i k hj hi
  · exact h.exclusive j i (Phase.active_of_fd hj) ha (h.fd_temp j k _ hj hi).symm

theorem Inv.holds_temp (h : Inv prev s) {i k p : Nat} (hi : Holds s (s.savers i) k) (hp : s.temp p = some k) :
    p = (s.savers i).pid := by
  rcases hi with hi | ⟨-, hi⟩
  · exact h.fd_temp i k p hi hp
  · exact h.temp_inj p _ k hp hi

theorem Inv.holds_target (h : Inv prev s) {i k : Nat} (hi : Holds s (s.savers i) k) : s.target ≠ some k := by
  rcases hi with hi | ⟨-, hi⟩
  · exact h.fd_target i k hi
  · exact h.temp_target _ k hi

theorem Inv.holds_lt (h : Inv prev s) {i k : Nat} (hi : Holds s (s.savers i) k) : k < s.inodes.length := by
  rcases hi with hi | ⟨-, hi⟩
  · exact h.fd_lt i k hi
  · exact h.temp_lt _ k hi

theorem Inv.holds_inj (h : Inv prev s) {i j k : Nat} (hi : Holds s (s.savers i) k) (hj : Holds s (s.savers j) k) :
    j = i := by
  rcases hj with hj | ⟨ha, hj⟩
  · exact h.holds_fd hi hj
  · have hp := h.holds_temp hi hj
    rcases hi with hi | ⟨ha', -⟩
    · exact h.exclusive j i ha (Phase.active_of_fd hi) hp
    · exact h.exclusive j i ha ha' hp

theorem Inv.unlink (h : Inv prev s) (p : Nat) : Inv prev (s.unlink p) := by
  have htemp : ∀ q k, (s.unlink p).temp q = some k → s.temp q = some k := fun q k hq => by
    by_cases hqp : q = p
    · rw [Sys.unlink, hqp] at hq
      simp at hq
    · simpa [Sys.unlink, Function.update_of_ne hqp] using hq
  exact {
    exclusive := h.exclusive
    temp_inj := fun q r k hq hr => h.temp_inj q r k (htemp q k hq) (htemp r k hr)
    temp_lt := fun q k hq => h.temp_lt q k (htemp q k hq)
    temp_target := fun q k hq => h.temp_target q k (htemp q k hq)
    target_lt := h.target_lt
    fd_lt := h.fd_lt
    fd_target := h.fd_target
    fd_temp := fun i k q hi hq => h.fd_temp i k q hi (htemp q k hq)
    temp_fd := fun i k l hi hl => h.temp_fd i k l hi (htemp _ l hl)
    fd_inj := h.fd_inj
    savers := fun i => (h.savers i).frame (fun k _ hk => htemp _ k hk) (fun _ _ => rfl)
    target := h.target
    kept := h.kept }

@[simp] theorem savers_setPhase (s : Sys) (i : Nat) (ph : Phase) :
    (s.setPhase i ph).savers = Function.update s.savers i { s.savers i with phase := ph } := rfl

theorem savers_setPhase_self (s : Sys) (i : Nat) (ph : Phase) :
    (s.setPhase i ph).savers i = { s.savers i with phase := ph } := by simp

theorem savers_setPhase_ne (s : Sys) {i j : Nat} (ph : Phase) (h : j ≠ i) : (s.setPhase i ph).savers j = s.savers j := by
  simp [Function.update_of_ne h]

@[simp] theorem body_setPhase (s : Sys) (i j : Nat) (ph : Phase) :
    ((s.setPhase i ph).savers j).body = (s.savers j).body := by
  by_cases h : j = i
  · rw [h, savers_setPhase_self]
  · rw [savers_setPhase_ne s ph h]

@[simp] theorem pid_setPhase (s : Sys) (i j : Nat) (ph : Phase) :
    ((s.setPhase i ph).savers j).pid = (s.savers j).pid := by
  by_cases h : j = i
  · rw [h, savers_setPhase_self]
  · rw [savers_setPhase_ne s ph h]

/-- A saver goes on to a phase: its file stays the one it works on, and what the phase says of it holds. -/
theorem Inv.setPhase (h : Inv prev s) {i : Nat} {ph : Phase}
    (hact : ph.active = true → ∀ j, j ≠ i → (s.savers j).phase.active = true → (s.savers j).pid ≠ (s.savers i).pid)
    (hfd : ∀ k, ph.fd = some k → Holds s (s.savers i) k)
    (hown : ∀ k l, ph.fd = some k → s.temp (s.savers i).pid = some l → l = k)
    (hok : SaverOk s { s.savers i with phase := ph }) : Inv prev (s.setPhase i ph) := by
  have hph : ∀ j, ((s.setPhase i ph).savers j).phase = if j = i then ph else (s.savers j).phase := fun j => by
    by_cases hj : j = i
    · rw [hj, savers_setPhase_self, if_pos rfl]
    · rw [savers_setPhase_ne s ph hj, if_neg hj]
  -- what a saver has open, its new phase or an old one, it works on
  have hholds : ∀ j k, ((s.setPhase i ph).savers j).phase.fd = some k → Holds s (s.savers j) k := fun j k hk => by
    rw [hph] at hk
    split at hk
    · rename_i hj
      rw [hj]
      exact hfd k hk
    · exact Or.inl hk
  exact {
    exclusive := fun a b ha hb hab => by
      rw [hph] at ha hb
      rw [pid_setPhase, pid_setPhase] at hab
      split at ha <;> split at hb
      · rename_i h1 h2
        rw [h1, h2]
      · rename_i h1 h2
        subst h1
        exact absurd hab.symm (hact ha b h2 hb)
      · rename_i h1 h2
        subst h2
        exact absurd hab (hact hb a h1 ha)
      · exact h.exclusive a b ha hb hab
    temp_inj := h.temp_inj
    temp_lt := h.temp_lt
    temp_target := h.temp_target
    target_lt := h.target_lt
    fd_lt := fun j k hk => h.holds_lt (hholds j k hk)
    fd_target := fun j k hk => h.holds_target (hholds j k hk)
    fd_temp := fun j k p hk hp => by
      rw [pid_setPhase]
      exact h.holds_temp (hholds j k hk) hp
    temp_fd := fun j k l hk hl => by
      rw [pid_setPhase] at hl
      rw [hph] at hk
      split at hk
      · rename_i hj
        rw [hj] at hl
        exact hown k l hk hl
      · exact h.temp_fd j k l hk hl
    fd_inj := fun a b k ha hb => h.holds_inj (hholds b k hb) (hholds a k ha)
    savers := fun j => by
      by_cases hj : j = i
      · rw [hj, savers_setPhase_self]
        exact hok.frame (fun _ _ hk => hk) (fun _ _ => rfl)
      · rw [savers_setPhase_ne s ph hj]
        exact (h.savers j).frame (fun _ _ hk => hk) (fun _ _ => rfl)
    target := fun c hc => by
      simp only [body_setPhase]
      exact h.target c hc
    kept := h.kept }

theorem inode_setInode (s : Sys) {k : Nat} (hk : k < s.inodes.length) (c : Bytes) (l : Nat) :
    (s.setInode k c).inode l = if l = k then c else s.inode l := by
  unfold Sys.setInode Sys.inode
  dsimp only
  rw [List.getD_eq_getElem?_getD, List.getD_eq_getElem?_getD, List.getElem?_set]
  by_cases h : l = k
  · rw [if_pos h, if_pos h.symm, if_pos hk, Option.getD_some]
  · rw [if_neg h, if_neg (fun e => h e.symm)]

theorem Inv.setInode (h : Inv prev s) {i k : Nat} (c : Bytes) {ph : Phase} (hi : Holds s (s.savers i) k)
    (hfd : ∀ l, ph.fd = some l → l = k) (hown : ∀ l, s.temp (s.savers i).pid = some l → l = k)
    (hok : SaverOk (s.setInode k c) { s.savers i with phase := ph }) :
    Inv prev ((s.setInode k c).setPhase i ph) := by
  have hk := h.holds_lt hi
  have hlen : (s.setInode k c).inodes.length = s.inodes.length := List.length_set
  have hact : (s.savers i).phase.active = true := hi.elim Phase.active_of_fd And.left
  have hph : ∀ j, (((s.setInode k c).setPhase i ph).savers j).phase = if j = i then ph else (s.savers j).phase := fun j => by
    by_cases hj : j = i
    · rw [hj, savers_setPhase_self, if_pos rfl]
    · rw [savers_setPhase_ne _ ph hj, if_neg hj]
      rfl
  have hholds : ∀ j l, (((s.setInode k c).setPhase i ph).savers j).phase.fd = some l → Holds s (s.savers j) l :=
    fun j l hl => by
      rw [hph] at hl
      split at hl
      · rename_i hj
        rw [hj, hfd l hl]
        exact hi
      · exact Or.inl hl
  exact {
    exclusive := fun a b ha hb hab => by
      rw [pid_setPhase, pid_setPhase] at hab
      refine h.exclusive a b ?_ ?_ hab
      · rw [hph] at ha
        split at ha
        · rename_i h1
          rw [h1]
          exact hact
        · exact ha
      · rw [hph] at hb
        split at hb
        · rename_i h1
          rw [h1]
          exact hact
        · exact hb
    temp_inj := h.temp_inj
    temp_lt := fun p l hp => hlen ▸ h.temp_lt p l hp
    temp_target := h.temp_target
    target_lt := fun l hl => hlen ▸ h.target_lt l hl
    fd_lt := fun j l hl => hlen ▸ h.holds_lt (hholds j l hl)
    fd_target := fun j l hl => h.holds_target (hholds j l hl)
    fd_temp := fun j l p hl hp => by
      rw [pid_setPhase]
      exact h.holds_temp (hholds j l hl) hp
    temp_fd := fun j l m hl hm => by
      rw [pid_setPhase] at hm
      rw [hph] at hl
      split at hl
      · rename_i hj
        rw [hj] at hm
        rw [hfd l hl]
        exact hown m hm
      · exact h.temp_fd j l m hl hm
    fd_inj := fun a b l ha hb => h.holds_inj (hholds b l hb) (hholds a l ha)
    savers := fun j => by
      by_cases hj : j = i
      · rw [hj, savers_setPhase_self]
        exact hok.frame (fun _ _ hl => hl) (fun _ _ => rfl)
      · rw [savers_setPhase_ne _ ph hj]
        refine (h.savers j).frame (fun _ _ hl => hl) (fun l hl => ?_)
        have hne : l ≠ k := fun e => hj (h.holds_inj hi (e ▸ hl))
        change (s.setInode k c).inode l = s.inode l
        rw [inode_setInode s hk, if_neg hne]
    target := fun d hd => by
      simp only [body_setPhase]
      refine h.target d ?_
      rw [Sys.content, Option.map_eq_some_iff] at hd ⊢
      obtain ⟨l, hl, hd⟩ := hd
      have hne : l ≠ k := fun e => h.holds_target hi (e ▸ hl)
      refine ⟨l, hl, ?_⟩
      change (s.setInode k c).inode l = d at hd
      rwa [inode_setInode s hk, if_neg hne] at hd
    kept := h.kept }

theorem inode_newTemp (s : Sys) (p : Nat) {l : Nat} (hl : l < s.inodes.length) : (s.newTemp p).inode l = s.inode l := by
  unfold Sys.newTemp Sys.inode
  dsimp only
  rw [List.getD_eq_getElem?_getD, List.getD_eq_getElem?_getD, List.getElem?_append_left hl]

theorem inode_newTemp_self (s : Sys) (p : Nat) : (s.newTemp p).inode s.inodes.length = [] := by
  unfold Sys.newTemp Sys.inode
  simp

theorem Inv.newTemp (h : Inv prev s) {i : Nat} (hi : (s.savers i).phase = .removed) :
    Inv prev (s.newTemp (s.savers i).pid) := by
  have hlen : (s.newTemp (s.savers i).pid).inodes.length = s.inodes.length + 1 := by simp [Sys.newTemp]
  have hact : (s.savers i).phase.active = true := by rw [hi]; rfl
  have htemp : ∀ p k, (s.newTemp (s.savers i).pid).temp p = some k →
      (p = (s.savers i).pid ∧ k = s.inodes.length) ∨ (p ≠ (s.savers i).pid ∧ s.temp p = some k) := fun p k hp => by
    by_cases he : p = (s.savers i).pid
    · rw [Sys.newTemp, he] at hp
      simp only [Function.update_self, Option.some.injEq] at hp
      exact Or.inl ⟨he, hp.symm⟩
    · exact Or.inr ⟨he, by simpa [Sys.newTemp, Function.update_of_ne he] using hp⟩
  exact {
    exclusive := h.exclusive
    temp_inj := fun p q k hp hq => by
      rcases htemp p k hp with ⟨rfl, rfl⟩ | ⟨-, hp⟩
      · rcases htemp q _ hq with ⟨rfl, -⟩ | ⟨-, hq⟩
        · rfl
        · exact absurd (h.temp_lt q _ hq) (by omega)
      · rcases htemp q k hq with ⟨-, rfl⟩ | ⟨-, hq⟩
        · exact absurd (h.temp_lt p _ hp) (by omega)
        · exact h.temp_inj p q k hp hq
    temp_lt := fun p k hp => by
      rcases htemp p k hp with ⟨-, rfl⟩ | ⟨-, hp⟩
      · omega
      · have := h.temp_lt p k hp
        omega
    temp_target := fun p k hp => by
      rcases htemp p k hp with ⟨-, rfl⟩ | ⟨-, hp⟩
      · exact fun ht => absurd (h.target_lt _ ht) (by omega)
      · exact h.temp_target p k hp
    target_lt := fun k hk => by
      have := h.target_lt k hk
      omega
    fd_lt := fun j k hk => by
      have := h.fd_lt j k hk
      omega
    fd_target := h.fd_target
    fd_temp := fun j k p hk hp => by
      rcases htemp p k hp with ⟨-, rfl⟩ | ⟨-, hp⟩
      · exact absurd (h.fd_lt j _ hk) (by omega)
      · exact h.fd_temp j k p hk hp
    temp_fd := fun j k l hk hl => by
      rcases htemp _ l hl with ⟨hp, -⟩ | ⟨-, hl⟩
      · have hji := h.exclusive j i (Phase.active_of_fd hk) hact hp
        have hk' : (s.savers j).phase.fd = some k := hk
        rw [hji, hi] at hk'
        cases hk'
      · exact h.temp_fd j k l hk hl
    fd_inj := h.fd_inj
    savers := fun j => by
      by_cases hj : j = i
      · subst hj
        change SaverOk _ (s.savers j)
        unfold SaverOk
        rw [hi]
        trivial
      · have hsame : ∀ k, (s.savers j).phase.active = true →
            (s.newTemp (s.savers i).pid).temp (s.savers j).pid = some k → s.temp (s.savers j).pid = some k :=
          fun k ha hk => by
            rcases htemp _ k hk with ⟨hp, -⟩ | ⟨-, hk⟩
            · exact absurd (h.exclusive j i ha hact hp) hj
            · exact hk
        refine (h.savers j).frame hsame (fun l hl => inode_newTemp s _ (h.holds_lt (i := j) ?_))
        exact hl.imp_right (fun ⟨ha, hl⟩ => ⟨ha, hsame l ha hl⟩)
    target := fun d hd => by
      refine h.target d ?_
      rw [Sys.content, Option.map_eq_some_iff] at hd ⊢
      obtain ⟨l, hl, hd⟩ := hd
      exact ⟨l, hl, by rwa [inode_newTemp s _ (h.target_lt l hl)] at hd⟩
    kept := h.kept }

theorem Inv.rename (h : Inv prev s) {i k : Nat} (hi : (s.savers i).phase = .appended)
    (hk : s.temp (s.savers i).pid = some k) :
    Inv prev ((s.renameTemp (s.savers i).pid k).setPhase i (.done (s.inode k))) := by
  have hwhole : s.inode k = (s.savers i).body ++ trailer (s.savers i).body := by
    have := h.savers i
    unfold SaverOk at this
    rw [hi] at this
    exact this k hk
  have hholds : Holds s (s.savers i) k := Or.inr ⟨by rw [hi]; rfl, hk⟩
  have hun := h.unlink (s.savers i).pid
  have hph : ∀ j, (((s.renameTemp (s.savers i).pid k).setPhase i (.done (s.inode k))).savers j).phase =
      if j = i then .done (s.inode k) else (s.savers j).phase := fun j => by
    by_cases hj : j = i
    · rw [hj, savers_setPhase_self, if_pos rfl]
    · rw [savers_setPhase_ne _ _ hj, if_neg hj]
      rfl
  have hfd : ∀ j l, (((s.renameTemp (s.savers i).pid k).setPhase i (.done (s.inode k))).savers j).phase.fd = some l →
      j ≠ i ∧ (s.savers j).phase.fd = some l := fun j l hl => by
    rw [hph] at hl
    split at hl
    · cases hl
    · rename_i hj
      exact ⟨hj, hl⟩
  have hactive : ∀ j, (((s.renameTemp (s.savers i).pid k).setPhase i (.done (s.inode k))).savers j).phase.active = true →
      (s.savers j).phase.active = true := fun j hj => by
    rw [hph] at hj
    split at hj
    · cases hj
    · exact hj
  exact {
    exclusive := fun a b ha hb hab => by
      rw [pid_setPhase, pid_setPhase] at hab
      exact h.exclusive a b (hactive a ha) (hactive b hb) hab
    temp_inj := hun.temp_inj
    temp_lt := hun.temp_lt
    temp_target := fun p l hp ht => by
      have hkl : k = l := Option.some.inj ht
      subst hkl
      by_cases he : p = (s.savers i).pid
      · rw [he] at hp
        simp [Sys.setPhase, Sys.renameTemp] at hp
      · have hp' : s.temp p = some k := by
          simpa [Sys.setPhase, Sys.renameTemp, Function.update_of_ne he] using hp
        exact he (h.temp_inj p _ k hp' hk)
    target_lt := fun l hl => by
      have hkl : k = l := Option.some.inj hl
      exact hkl ▸ h.temp_lt _ k hk
    fd_lt := fun j l hl => h.fd_lt j l (hfd j l hl).2
    fd_target := fun j l hl ht => by
      have hkl : k = l := Option.some.inj ht
      exact (hfd j l hl).1 (h.holds_fd hholds (hkl ▸ (hfd j l hl).2))
    fd_temp := fun j l p hl hp => by
      rw [pid_setPhase]
      exact hun.fd_temp j l p (hfd j l hl).2 hp
    temp_fd := fun j l m hl hm => by
      rw [pid_setPhase] at hm
      exact hun.temp_fd j l m (hfd j l hl).2 hm
    fd_inj := fun a b l ha hb => h.fd_inj a b l (hfd a l ha).2 (hfd b l hb).2
    savers := fun j => by
      by_cases hj : j = i
      · rw [hj, savers_setPhase_self]
        exact hwhole
      · rw [savers_setPhase_ne _ _ hj]
        exact (hun.savers j).frame (fun _ _ hl => hl) (fun _ _ => rfl)
    target := fun d hd => by
      simp only [body_setPhase]
      right
      have hd' : s.inode k = d := Option.some.inj hd
      exact ⟨i, hd' ▸ hwhole⟩
    kept := fun hn => by cases hn }

end

/-! ## Runs -/

/-- A step after which nothing goes wrong: a saver starts when no other of its process is under way, opens its temporary
again when it is there, and no loader deletes the target. -/
def Orderly (s : Sys) : Act → Prop
  | .removeTemp i => ∀ j, (s.savers j).phase.active = true → (s.savers j).pid ≠ (s.savers i).pid
  | .reopen i => s.temp (s.savers i).pid ≠ none
  | .cleanTarget _ => False
  | _ => True

/-- Before anything has been done: no saver has started, and every file has one name. -/
structure Initial (s : Sys) : Prop where
  idle : ∀ i, (s.savers i).phase = .idle
  temp_inj : ∀ p q k, s.temp p = some k → s.temp q = some k → p = q
  temp_lt : ∀ p k, s.temp p = some k → k < s.inodes.length
  temp_target : ∀ p k, s.temp p = some k → s.target ≠ some k
  target_lt : ∀ k, s.target = some k → k < s.inodes.length

theorem Initial.inv {s : Sys} (h : Initial s) : Inv s.content s := by
  have hfd : ∀ i, (s.savers i).phase.fd = none := fun i => by rw [h.idle]; rfl
  have hact : ∀ i, (s.savers i).phase.active = false := fun i => by rw [h.idle]; rfl
  exact {
    exclusive := fun i j hi => by
      rw [hact] at hi
      cases hi
    temp_inj := h.temp_inj
    temp_lt := h.temp_lt
    temp_target := h.temp_target
    target_lt := h.target_lt
    fd_lt := fun i k hk => by
      rw [hfd] at hk
      cases hk
    fd_target := fun i k hk => by
      rw [hfd] at hk
      cases hk
    fd_temp := fun i k p hk => by
      rw [hfd] at hk
      cases hk
    temp_fd := fun i k l hk => by
      rw [hfd] at hk
      cases hk
    fd_inj := fun i j k hk => by
      rw [hfd] at hk
      cases hk
    savers := fun i => by
      unfold SaverOk
      rw [h.idle]
      trivial
    target := fun c hc => Or.inl hc
    kept := fun hn => by rw [Sys.content, hn]; rfl }

theorem writeAt_take {body : Bytes} {off : Nat} (hoff : off ≤ body.length) (n : Nat) :
    writeAt (body.take off) off ((body.drop off).take n) = body.take (off + ((body.drop off).take n).length) := by
  have hlen : (body.take off).length = off := by
    rw [List.length_take]
    omega
  have htail : (body.take off).drop (off + ((body.drop off).take n).length) = [] := List.drop_eq_nil_of_le (by omega)
  have htake : body.take off ++ (body.drop off).take ((body.drop off).take n).length =
      body.take (off + ((body.drop off).take n).length) := List.take_add.symm
  rw [writeAt, hlen, htail, ← htake, Nat.sub_self, List.take_of_length_le (by omega : (body.take off).length ≤ off)]
  simp

section
variable {prev : Option Bytes} {s t : Sys}

theorem Inv.setPhase_active (h : Inv prev s) {i : Nat} {ph : Phase} (hi : (s.savers i).phase.active = true)
    (hfd : ph.fd = none) (hok : SaverOk s { s.savers i with phase := ph }) : Inv prev (s.setPhase i ph) :=
  h.setPhase (fun _ j hj ha hp => hj (h.exclusive j i ha hi hp)) (fun k hk => by rw [hfd] at hk; cases hk)
    (fun k l hk => by rw [hfd] at hk; cases hk) hok

theorem Inv.fail (h : Inv prev s) {i : Nat} (hi : (s.savers i).phase.active = true) :
    Inv prev ((s.unlink (s.savers i).pid).setPhase i .failed) :=
  (h.unlink _).setPhase_active (i := i) hi rfl trivial

/-- **An orderly step keeps the invariant.** -/
theorem Inv.step (h : Inv prev s) : ∀ {a : Act}, Orderly s a → Publish.step s a = some t → Inv prev t
  | .removeTemp i, hok, hst => by
    rw [Publish.step] at hst
    split at hst
    · cases hst
      exact (h.unlink _).setPhase (fun _ j _ ha => hok j ha) (fun k hk => by cases hk) (fun k l hk => by cases hk) trivial
    · cases hst
  | .create i, _, hst => by
    rw [Publish.step] at hst
    split at hst
    · rename_i hi
      have hact : (s.savers i).phase.active = true := by rw [hi]; rfl
      split at hst
      · cases hst
        have htemp : (s.newTemp (s.savers i).pid).temp (s.savers i).pid = some s.inodes.length := by simp [Sys.newTemp]
        refine (h.newTemp hi).setPhase (fun _ j hj ha hp => hj (h.exclusive j i ha hact hp)) ?_ ?_ ?_
        · intro k hk
          cases hk
          exact Or.inr ⟨hact, htemp⟩
        · intro k l hk hl
          cases hk
          exact Option.some.inj (hl.symm.trans htemp)
        · exact ⟨Nat.zero_le _, inode_newTemp_self s _⟩
      · rename_i k hk
        cases hst
        have hholds : Holds s (s.savers i) k := Or.inr ⟨hact, hk⟩
        refine h.setInode [] hholds (fun l hl => by cases hl; rfl) (fun l hl => Option.some.inj (hl.symm.trans hk)) ?_
        exact ⟨Nat.zero_le _, by rw [inode_setInode s (h.holds_lt hholds), if_pos rfl]; rfl⟩
    · cases hst
  | .write i n, _, hst => by
    rw [Publish.step] at hst
    split at hst
    · rename_i fd off hi
      cases hst
      have hfd : (s.savers i).phase.fd = some fd := by rw [hi]; rfl
      have hsav := h.savers i
      unfold SaverOk at hsav
      rw [hi] at hsav
      obtain ⟨hoff, hinode⟩ := hsav
      refine h.setInode _ (Or.inl hfd) (fun l hl => by cases hl; rfl) (fun l hl => h.temp_fd i fd l hfd hl) ⟨?_, ?_⟩
      · dsimp only
        rw [List.length_take, List.length_drop]
        omega
      · rw [inode_setInode s (h.fd_lt i fd hfd), if_pos rfl, hinode]
        exact writeAt_take hoff n
    · cases hst
  | .close i, _, hst => by
    rw [Publish.step] at hst
    split at hst
    · rename_i fd off hi
      split at hst
      · rename_i hoff
        cases hst
        have hfd : (s.savers i).phase.fd = some fd := by rw [hi]; rfl
        have hsav := h.savers i
        unfold SaverOk at hsav
        rw [hi] at hsav
        refine h.setPhase_active (Phase.active_of_fd hfd) rfl (fun k hk => ?_)
        rw [h.temp_fd i fd k hfd hk, hsav.2, hoff, List.take_length]
      · cases hst
    · cases hst
  | .hash i, _, hst => by
    rw [Publish.step] at hst
    split at hst
    · rename_i hi
      have hact : (s.savers i).phase.active = true := by rw [hi]; rfl
      have hsav := h.savers i
      unfold SaverOk at hsav
      rw [hi] at hsav
      split at hst
      · cases hst
        exact h.setPhase_active hact rfl trivial
      · rename_i k hk
        split at hst
        · cases hst
          exact h.fail hact
        · cases hst
          exact h.setPhase_active hact rfl ⟨by rw [hsav k hk], hsav⟩
    · cases hst
  | .reopen i, hok, hst => by
    rw [Publish.step] at hst
    split at hst
    · rename_i c hi
      have hact : (s.savers i).phase.active = true := by rw [hi]; rfl
      have hsav := h.savers i
      unfold SaverOk at hsav
      rw [hi] at hsav
      split at hst
      · rename_i hn
        exact absurd hn hok
      · rename_i k hk
        cases hst
        refine h.setPhase (fun _ j hj ha hp => hj (h.exclusive j i ha hact hp)) ?_ ?_ ⟨hsav.1, hsav.2 k hk⟩
        · intro l hl
          cases hl
          exact Or.inr ⟨hact, hk⟩
        · intro l m hl hm
          cases hl
          exact Option.some.inj (hm.symm.trans hk)
    · cases hst
  | .append i, _, hst => by
    rw [Publish.step] at hst
    split at hst
    · rename_i fd c hi
      cases hst
      have hfd : (s.savers i).phase.fd = some fd := by rw [hi]; rfl
      have hsav := h.savers i
      unfold SaverOk at hsav
      rw [hi] at hsav
      refine h.setInode _ (Or.inl hfd) (fun l hl => by cases hl) (fun l hl => h.temp_fd i fd l hfd hl) (fun k hk => ?_)
      rw [h.temp_fd i fd k hfd hk, inode_setInode s (h.fd_lt i fd hfd), if_pos rfl, hsav.1, hsav.2]
    · cases hst
  | .rename i, _, hst => by
    rw [Publish.step] at hst
    split at hst
    · rename_i hi
      split at hst
      · cases hst
        exact h.setPhase_active (by rw [hi]; rfl) rfl trivial
      · rename_i k hk
        cases hst
        exact h.rename hi hk
    · cases hst
  | .abort i, _, hst => by
    rw [Publish.step] at hst
    split at hst
    · rename_i hi
      cases hst
      exact h.fail hi
    · cases hst
  | .crash i, _, hst => by
    rw [Publish.step] at hst
    split at hst
    · rename_i hi
      cases hst
      exact h.setPhase_active hi rfl trivial
    · cases hst
  | .clean l p, _, hst => by
    rw [Publish.step] at hst
    split at hst
    · cases hst
      exact h.unlink p
    · cases hst
  | .cleanTarget l, hok, _ => hok.elim
  | .read l, _, hst => by
    rw [Publish.step] at hst
    split at hst
    · cases hst
      exact ⟨h.exclusive, h.temp_inj, h.temp_lt, h.temp_target, h.target_lt, h.fd_lt, h.fd_target, h.fd_temp, h.temp_fd,
        h.fd_inj, fun i => (h.savers i).frame (fun _ _ hk => hk) (fun _ _ => rfl), h.target, h.kept⟩
    · cases hst

end

/-- **In every run of orderly steps what is published is whole.** -/
theorem publish_safe {s t : Sys} (hs : Initial s) (h : Run step Orderly s t) : Safe s.content t := by
  have hinv : Inv s.content t := h.invariant (fun _ _ _ hi hok hst => hi.step hok hst) hs.inv
  refine ⟨hinv.target, fun hn => hinv.kept (Option.map_eq_none_iff.1 hn), fun i c hc => ?_⟩
  have hsav := hinv.savers i
  unfold SaverOk at hsav
  rw [hc] at hsav
  exact hsav

/-- Savers of a body of twelve zeros, all of process 7, and an empty directory. -/
def emptyDir : Sys where
  target := none
  temp := fun _ => none
  inodes := []
  savers := fun _ => ⟨7, List.replicate 12 0, .idle⟩

theorem emptyDir_initial : Initial emptyDir :=
  ⟨fun _ => rfl, fun _ _ _ h => (by cases h), fun _ _ h => (by cases h), fun _ _ h => (by cases h), fun _ h => (by cases h)⟩

/-- One save, start to end. -/
theorem publish_safe_once : ∃ t, Run step Orderly emptyDir t ∧
    (t.savers 0).phase = .done (List.replicate 12 0 ++ trailer (List.replicate 12 0)) ∧ Safe none t := by
  have h : Run step Orderly emptyDir _ :=
    .cons (.removeTemp 0) (fun _ h => (by cases h)) rfl <| .cons (.create 0) trivial rfl <|
    .cons (.write 0 12) trivial rfl <| .cons (.close 0) trivial rfl <| .cons (.hash 0) trivial rfl <|
    .cons (.reopen 0) (fun h => (by cases h)) rfl <| .cons (.append 0) trivial rfl <| .cons (.rename 0) trivial rfl <|
    .refl _
  exact ⟨_, h, rfl, publish_safe emptyDir_initial h⟩

/-- A loader deletes the temporary between the hash and the reopening: the checksum alone is published. -/
theorem not_publish_safe : ¬ ∀ s t : Sys, Initial s → Run step (fun _ _ => True) s t → Safe s.content t := by
  intro h
  have hrun : ∃ t, runAll step emptyDir [.removeTemp 0, .create 0, .write 0 12, .close 0, .hash 0, .clean 0 7, .reopen 0,
      .append 0, .rename 0] = some t ∧ (t.savers 0).phase = .done (trailer (List.replicate 12 0)) ∧
      (t.savers 0).body = List.replicate 12 0 := ⟨_, rfl, rfl, rfl⟩
  obtain ⟨t, ht, hdone, hbody⟩ := hrun
  have hsafe := h emptyDir t emptyDir_initial (Run.of_runAll (fun _ _ => trivial) ht)
  have hlen := congrArg List.length (hsafe.success 0 _ hdone)
  rw [hbody, List.length_append, List.length_replicate] at hlen
  omega

end Publish
end Pergrep
