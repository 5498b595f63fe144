import GcAos.Gui.Windows
import GcAos.Lib.Bits

/-! The lists of windows and events over every sequence of calls. -/

namespace GcAos.Gui
open Lib

variable {s t : Windows} {a p e : ℕ} {win : GuiWindow} {proc : ProcessWindows} {l rest : List ℕ}

structure Listed (s : Windows) : Prop where
  nodup : s.windows.Nodup
  live : ∀ a ∈ s.windows, (s.window a).isSome
  count : s.windowCount = .ofNat 32 s.windows.length
  small : s.windows.length < 2 ^ 31

/-- The mappings are those of different processes, and share out the windows. -/
structure Mapped (s : Windows) : Prop where
  nodup : s.processWindows.Nodup
  live : ∀ p ∈ s.processWindows, (s.process p).isSome
  pids : ∀ p ∈ s.processWindows, ∀ q ∈ s.processWindows, ∀ x y, s.process p = some x →
    s.process q = some y →
    x.pid = y.pid → p = q
  owned : (s.processWindows.flatMap s.ownedBy).Perm s.windows
  owner : ∀ p ∈ s.processWindows, ∀ proc, s.process p = some proc → ∀ a ∈ proc.windows,
    ∃ win, s.window a = some win ∧ win.ownerPid = proc.pid

structure Queued (s : Windows) : Prop where
  nodup : s.eventCache.Nodup
  events : (s.windows.flatMap s.queueOf).Perm s.eventCache

structure WindowsInv (s : Windows) : Prop where
  listed : Listed s
  mapped : Mapped s
  queued : Queued s

/-! What hangs from a window or a mapping that changes. -/

theorem queueOf_update {x : Option GuiWindow} (h : t.window = Function.update s.window a x) :
    t.queueOf = Function.update s.queueOf a ((x.map GuiWindow.eventQueue).getD []) := by
  funext b
  rw [Windows.queueOf, h]
  by_cases hb : b = a
  · subst hb
    rw [Function.update_self, Function.update_self]
    cases x <;> rfl
  · rw [Function.update_of_ne hb, Function.update_of_ne hb]
    rfl

theorem ownedBy_update {x : Option ProcessWindows} (h : t.process = Function.update s.process p x) :
    t.ownedBy = Function.update s.ownedBy p ((x.map ProcessWindows.windows).getD []) := by
  funext q
  rw [Windows.ownedBy, h]
  by_cases hq : q = p
  · subst hq
    rw [Function.update_self, Function.update_self]
    cases x <;> rfl
  · rw [Function.update_of_ne hq, Function.update_of_ne hq]
    rfl

theorem ownedBy_of_process (h : s.process p = some proc) : s.ownedBy p = proc.windows := by
  rw [Windows.ownedBy, h]

theorem queueOf_of_window (h : s.window a = some win) : s.queueOf a = win.eventQueue := by
  rw [Windows.queueOf, h]

/-! The windows. -/

theorem Listed.not_mem (h : Listed s) (ha : s.window a = none) : a ∉ s.windows := by
  intro hmem
  have := h.live a hmem
  rw [ha] at this
  exact Bool.noConfusion this

theorem Listed.push (h : Listed s) (ha : s.window a = none) (hsmall : s.windows.length + 1 < 2 ^ 31)
    (hwindows : t.windows = a :: s.windows) (hcount : t.windowCount = s.windowCount + 1)
    (hwindow : t.window = Function.update s.window a (some win)) : Listed t := by
  refine ⟨?_, ?_, ?_, ?_⟩
  · rw [hwindows]
    exact List.nodup_cons.mpr ⟨h.not_mem ha, h.nodup⟩
  · rw [hwindows, hwindow]
    refine List.forall_mem_cons.mpr ⟨by rw [Function.update_self]; rfl, fun b hb => ?_⟩
    rw [Function.update_of_ne (ne_of_mem_of_not_mem hb (h.not_mem ha))]
    exact h.live b hb
  · rw [hcount, h.count, hwindows, List.length_cons, BitVec.ofNat_add]
    rfl
  · rwa [hwindows, List.length_cons]

theorem Listed.erase (h : Listed s) (ha : a ∈ s.windows) (hwindows : t.windows = s.windows.erase a)
    (hcount : t.windowCount = s.windowCount - 1)
      (hwindow : t.window = Function.update s.window a none) :
    Listed t := by
  have hlen : s.windows.length = (s.windows.erase a).length + 1 := (List.perm_cons_erase ha).length_eq
  refine ⟨?_, ?_, ?_, ?_⟩
  · rw [hwindows]
    exact h.nodup.erase a
  · rw [hwindows, hwindow]
    intro b hb
    rw [Function.update_of_ne (ne_of_mem_of_not_mem hb h.nodup.not_mem_erase)]
    exact h.live b (List.mem_of_mem_erase hb)
  · rw [hcount, h.count, hwindows, hlen, BitVec.ofNat_add]
    exact BitVec.add_sub_cancel ..
  · have hsmall := h.small
    rw [hwindows]
    omega

/-! The mappings. -/

namespace Mapped

theorem findProcess_cases (h : Mapped s) (pid : BitVec 32) :
    (s.findProcess pid = some none ∧ ∀ p ∈ s.processWindows, ∀ x, s.process p = some x → x.pid ≠ pid) ∨
      ∃ p proc, s.findProcess pid = some (some (p, proc)) ∧ p ∈ s.processWindows ∧
        s.process p = some proc ∧
        proc.pid = pid := by
  rcases findEntry_cases (p := fun proc : ProcessWindows => proc.pid = pid) h.live with hnone |
    ⟨p, proc, hfound⟩
  · exact .inl ⟨hnone, findEntry_eq_none hnone⟩
  · exact .inr ⟨p, proc, hfound, mem_of_findEntry hfound⟩

theorem change (h : Mapped s) (hp : p ∈ s.processWindows) (hproc : s.process p = some proc)
    (hprocs : t.processWindows = s.processWindows)
    (hprocess : t.process = Function.update s.process p (some ⟨proc.pid, l⟩))
    (howned : (l ++ (s.processWindows.erase p).flatMap s.ownedBy).Perm t.windows)
    (hnew : ∀ a ∈ l, ∃ win, t.window a = some win ∧ win.ownerPid = proc.pid)
    (hold : ∀ q ∈ s.processWindows.erase p, ∀ a ∈ s.ownedBy q, t.window a = s.window a) : Mapped t := by
  have hread : ∀ q x, t.process q = some x → ∃ y, s.process q = some y ∧ y.pid = x.pid := by
    intro q x hx
    rw [hprocess] at hx
    by_cases hq : q = p
    · subst hq
      rw [Function.update_self] at hx
      exact ⟨proc, hproc, by rw [← Option.some.inj hx]⟩
    · rw [Function.update_of_ne hq] at hx
      exact ⟨x, hx, rfl⟩
  refine ⟨by rw [hprocs]; exact h.nodup, ?_, ?_, ?_, ?_⟩
  · rw [hprocs, hprocess]
    intro q hq
    by_cases hqp : q = p
    · rw [hqp, Function.update_self]
      rfl
    · rw [Function.update_of_ne hqp]
      exact h.live q hq
  · rw [hprocs]
    intro q hq r hr x y hx hy heq
    obtain ⟨x', hx', hxpid⟩ := hread q x hx
    obtain ⟨y', hy', hypid⟩ := hread r y hy
    exact h.pids q hq r hr x' y' hx' hy' (by rw [hxpid, hypid, heq])
  · rw [hprocs, ownedBy_update hprocess]
    exact (flatMap_update_perm h.nodup hp l).trans howned
  · rw [hprocs, hprocess]
    intro q hq x hx a ha
    by_cases hqp : q = p
    · subst hqp
      rw [Function.update_self] at hx
      obtain rfl := Option.some.inj hx
      exact hnew a ha
    · rw [Function.update_of_ne hqp] at hx
      rw [hold q ((List.mem_erase_of_ne hqp).mpr hq) a (by rwa [ownedBy_of_process hx])]
      exact h.owner q hq x hx a ha

theorem window_of_mem (h : Mapped s) (ha : a ∉ s.windows)
    (hwindow : t.window = Function.update s.window a (some win))
    {q b : ℕ} (hq : q ∈ s.processWindows) (hb : b ∈ s.ownedBy q) : t.window b = s.window b := by
  have hmem : b ∈ s.windows := h.owned.mem_iff.mp (List.mem_flatMap.mpr ⟨q, hq, hb⟩)
  rw [hwindow, Function.update_of_ne (ne_of_mem_of_not_mem hmem ha)]

theorem push (h : Mapped s) (ha : a ∉ s.windows) (hp : p ∈ s.processWindows)
    (hproc : s.process p = some proc)
    (hpid : win.ownerPid = proc.pid) (hprocs : t.processWindows = s.processWindows)
    (hprocess : t.process = Function.update s.process p (some ⟨proc.pid, a :: proc.windows⟩))
    (hwindows : t.windows = a :: s.windows)
      (hwindow : t.window = Function.update s.window a (some win)) :
    Mapped t := by
  have hsame := fun q hq b hb => h.window_of_mem (t := t) (q := q) (b := b) ha hwindow hq hb
  refine h.change hp hproc hprocs hprocess ?_ ?_ fun q hq => hsame q (List.mem_of_mem_erase hq)
  · have howned := (flatMap_perm_erase (f := s.ownedBy) hp).symm.trans h.owned
    rw [ownedBy_of_process hproc] at howned
    rw [hwindows]
    exact howned.cons a
  · refine List.forall_mem_cons.mpr ⟨⟨win, by rw [hwindow, Function.update_self], hpid⟩, fun b hb => ?_⟩
    rw [hsame p hp b (by rwa [ownedBy_of_process hproc])]
    exact h.owner p hp proc hproc b hb

theorem pushNew (h : Mapped s) (ha : a ∉ s.windows) (hp : s.process p = none)
    (hpid : ∀ q ∈ s.processWindows, ∀ x, s.process q = some x → x.pid ≠ win.ownerPid)
    (hprocs : t.processWindows = p :: s.processWindows)
    (hprocess : t.process = Function.update s.process p (some ⟨win.ownerPid, [a]⟩))
    (hwindows : t.windows = a :: s.windows)
      (hwindow : t.window = Function.update s.window a (some win)) :
    Mapped t := by
  have hnot : p ∉ s.processWindows := by
    intro hmem
    have := h.live p hmem
    rw [hp] at this
    exact Bool.noConfusion this
  have hne : ∀ q ∈ s.processWindows, t.process q = s.process q := fun q hq => by
    rw [hprocess, Function.update_of_ne (ne_of_mem_of_not_mem hq hnot)]
  have hself : t.process p = some ⟨win.ownerPid, [a]⟩ := by rw [hprocess, Function.update_self]
  refine ⟨?_, ?_, ?_, ?_, ?_⟩
  · rw [hprocs]
    exact List.nodup_cons.mpr ⟨hnot, h.nodup⟩
  · rw [hprocs]
    refine List.forall_mem_cons.mpr ⟨by rw [hself]; rfl, fun q hq => ?_⟩
    rw [hne q hq]
    exact h.live q hq
  · rw [hprocs]
    intro q hq r hr x y hx hy heq
    rcases List.mem_cons.mp hq with rfl | hq'
    · rcases List.mem_cons.mp hr with rfl | hr'
      · rfl
      · rw [hself] at hx
        rw [hne r hr'] at hy
        rw [← Option.some.inj hx] at heq
        exact absurd heq.symm (hpid r hr' y hy)
    · rw [hne q hq'] at hx
      rcases List.mem_cons.mp hr with rfl | hr'
      · rw [hself] at hy
        rw [← Option.some.inj hy] at heq
        exact absurd heq (hpid q hq' x hx)
      · rw [hne r hr'] at hy
        exact h.pids q hq' r hr' x y hx hy heq
  · rw [hprocs, hwindows, List.flatMap_cons, ownedBy_of_process hself]
    have hrest : s.processWindows.flatMap t.ownedBy = s.processWindows.flatMap s.ownedBy :=
      List.flatMap_congr fun q hq => by rw [Windows.ownedBy, Windows.ownedBy, hne q hq]
    rw [hrest]
    exact h.owned.cons a
  · rw [hprocs]
    refine List.forall_mem_cons.mpr ⟨fun x hx b hb => ?_, fun q hq x hx b hb => ?_⟩
    · rw [hself] at hx
      obtain rfl := Option.some.inj hx
      rw [List.mem_singleton.mp hb, hwindow, Function.update_self]
      exact ⟨win, rfl, rfl⟩
    · rw [hne q hq] at hx
      rw [h.window_of_mem ha hwindow hq (by rwa [ownedBy_of_process hx])]
      exact h.owner q hq x hx b hb

theorem delOwned (h : Mapped s) (hs : s.windows.Nodup) (ha : a ∈ s.windows)
    (hprocs : t.processWindows = s.processWindows) (hprocess : t.process = s.process) :
    ∃ p, ∃ proc : ProcessWindows,
      t.delOwned a = some (t.setProcess p (some ⟨proc.pid, proc.windows.erase a⟩)) ∧
      ∀ u : Windows, u.windows = s.windows.erase a → u.window = Function.update s.window a none →
        u.processWindows = s.processWindows →
        u.process = Function.update s.process p (some ⟨proc.pid, proc.windows.erase a⟩) →
        Mapped u := by
  obtain ⟨q, hq, haq⟩ := List.mem_flatMap.mp (h.owned.mem_iff.mpr ha)
  obtain ⟨y, hy⟩ := Option.isSome_iff_exists.mp (h.live q hq)
  rw [ownedBy_of_process hy] at haq
  rcases findEntry_cases (p := fun proc : ProcessWindows => a ∈ proc.windows) h.live with
    hnone | ⟨p, proc, hfound⟩
  · exact absurd haq (findEntry_eq_none hnone q hq y hy)
  obtain ⟨hp, hproc, hmem⟩ := mem_of_findEntry hfound
  refine ⟨p, proc, ?_, fun u hwindows hwindow huprocs huprocess => ?_⟩
  · rw [Windows.delOwned, hprocs, hprocess, hfound]
  · have howned := (flatMap_perm_erase (f := s.ownedBy) hp).symm.trans h.owned
    rw [ownedBy_of_process hproc] at howned
    have hperm := howned.erase a
    rw [List.erase_append_left _ hmem] at hperm
    have hnot : ∀ b ∈ s.windows.erase a, u.window b = s.window b := fun b hb => by
      rw [hwindow, Function.update_of_ne (ne_of_mem_of_not_mem hb hs.not_mem_erase)]
    refine h.change hp hproc huprocs huprocess (by rwa [hwindows]) (fun b hb => ?_) fun q hq b hb => ?_
    · rw [hnot b (hperm.mem_iff.mp (List.mem_append_left _ hb))]
      exact h.owner p hp proc hproc b (List.mem_of_mem_erase hb)
    · exact hnot b (hperm.mem_iff.mp (List.mem_append_right _ (List.mem_flatMap.mpr ⟨q, hq, hb⟩)))

theorem congr (h : Mapped s) (hwindows : t.windows = s.windows)
    (hprocs : t.processWindows = s.processWindows)
    (hprocess : t.process = s.process)
    (hwindow : ∀ a win, s.window a = some win → ∃ win',
      t.window a = some win' ∧ win'.ownerPid = win.ownerPid) :
    Mapped t := by
  have howns : t.ownedBy = s.ownedBy := by
    funext q
    rw [Windows.ownedBy, Windows.ownedBy, hprocess]
  refine ⟨by rw [hprocs]; exact h.nodup, ?_, ?_, ?_, ?_⟩
  · rw [hprocs, hprocess]
    exact h.live
  · rw [hprocs, hprocess]
    exact h.pids
  · rw [hprocs, howns, hwindows]
    exact h.owned
  · rw [hprocs, hprocess]
    intro q hq x hx a ha
    obtain ⟨win, hwin, hpid⟩ := h.owner q hq x hx a ha
    obtain ⟨win', hwin', hpid'⟩ := hwindow a win hwin
    exact ⟨win', hwin', hpid'.trans hpid⟩

end Mapped

/-! The events. -/

namespace Queued

theorem push (h : Queued s) (ha : a ∉ s.windows) (hempty : win.eventQueue = [])
    (hwindows : t.windows = a :: s.windows) (hwindow : t.window = Function.update s.window a (some win))
    (hcache : t.eventCache = s.eventCache) : Queued t := by
  refine ⟨by rw [hcache]; exact h.nodup, ?_⟩
  rw [hwindows, hcache, queueOf_update hwindow, List.flatMap_cons, Function.update_self,
    flatMap_update_of_not_mem ha]
  simp only [Option.map_some, Option.getD_some, hempty, List.nil_append]
  exact h.events

theorem post (h : Queued s) (hs : s.windows.Nodup) (ha : a ∈ s.windows) (hwin : s.window a = some win)
    {win' : GuiWindow} (he : e ∉ s.eventCache) (hqueue : win'.eventQueue = win.eventQueue ++ [e])
    (hwindows : t.windows = s.windows) (hwindow : t.window = Function.update s.window a (some win'))
    (hcache : t.eventCache = e :: s.eventCache) : Queued t := by
  refine ⟨by rw [hcache]; exact List.nodup_cons.mpr ⟨he, h.nodup⟩, ?_⟩
  have hold := (flatMap_perm_erase (f := s.queueOf) ha).symm.trans h.events
  rw [queueOf_of_window hwin] at hold
  rw [hwindows, hcache, queueOf_update hwindow]
  refine (flatMap_update_perm hs ha _).trans ?_
  simp only [Option.map_some, Option.getD_some, hqueue]
  calc win.eventQueue ++ [e] ++ (s.windows.erase a).flatMap s.queueOf
    _ = win.eventQueue ++ e :: (s.windows.erase a).flatMap s.queueOf := List.append_cons .. |>.symm
    _ |>.Perm (e :: (win.eventQueue ++ (s.windows.erase a).flatMap s.queueOf)) := List.perm_middle
    _ |>.Perm (e :: s.eventCache) := hold.cons e

theorem erase (h : Queued s) (hs : s.windows.Nodup) (ha : a ∈ s.windows) {cache : List ℕ}
    (hcache : (s.queueOf a ++ cache).Perm s.eventCache)
    (hwindows : t.windows = s.windows.erase a) (hwindow : t.window = Function.update s.window a none)
    (htcache : t.eventCache = cache) : Queued t := by
  have hold := (flatMap_perm_erase (f := s.queueOf) ha).symm.trans h.events
  refine ⟨?_, ?_⟩
  · rw [htcache]
    exact ((hcache.nodup_iff.mpr h.nodup).of_append_right)
  · rw [hwindows, htcache, queueOf_update hwindow, flatMap_update_of_not_mem hs.not_mem_erase]
    exact (List.perm_append_left_iff _).mp (hold.trans hcache.symm)

end Queued

theorem freeEvents_spec (h : (l ++ rest).Perm s.eventCache) :
    ∃ cache event, s.freeEvents l = some { s with eventCache := cache, event := event } ∧
      rest.Perm cache := by
  induction l generalizing s with
  | nil => exact ⟨s.eventCache, s.event, rfl, h⟩
  | cons e l ih =>
    have he : e ∈ s.eventCache := h.mem_iff.mp List.mem_cons_self
    have hrest : (l ++ rest).Perm (s.eventCache.erase e) := by
      have := h.erase e
      rwa [List.cons_append, List.erase_cons_head] at this
    rw [Windows.freeEvents, if_pos he]
    exact ih (s :=
      { s with eventCache := s.eventCache.erase e, event := Function.update s.event e none }) hrest

theorem exitWindows_spec (h : (l ++ rest).Perm s.windows) (hlisted : Listed s) (hqueued : Queued s)
    (hempty : ∀ a ∈ l, s.queueOf a = []) :
    ∃ t, s.exitWindows l = some t ∧ Listed t ∧ Queued t ∧ rest.Perm t.windows ∧ t.process = s.process ∧
      t.processWindows = s.processWindows ∧ ∀ a ∈ rest, t.window a = s.window a := by
  induction l generalizing s with
  | nil => exact ⟨s, rfl, hlisted, hqueued, h, rfl, rfl, fun _ _ => rfl⟩
  | cons a l ih =>
    have ha : a ∈ s.windows := h.mem_iff.mp List.mem_cons_self
    have hrest : (l ++ rest).Perm (s.windows.erase a) := by
      have := h.erase a
      rwa [List.cons_append, List.erase_cons_head] at this
    have hne : ∀ b ∈ l ++ rest, b ≠ a := fun b hb =>
      ne_of_mem_of_not_mem (hrest.mem_iff.mp hb) hlisted.nodup.not_mem_erase
    generalize hu : Windows.setWindow
      { s with windows := s.windows.erase a, windowCount := s.windowCount - 1 } a none = u
    have hwindow : u.window = Function.update s.window a none := by rw [← hu]; rfl
    have hcache : (s.queueOf a ++ s.eventCache).Perm s.eventCache := by
      rw [hempty a List.mem_cons_self]
      rfl
    obtain ⟨t, ht, htlisted, htqueued, hperm, hprocess, hprocs, hsame⟩ :=
      ih (s := u) (by rw [← hu]; exact hrest)
        (hlisted.erase ha (by rw [← hu]; rfl) (by rw [← hu]; rfl) hwindow)
        (hqueued.erase hlisted.nodup ha hcache (by rw [← hu]; rfl) hwindow (by rw [← hu]; rfl))
        fun b hb => by
          rw [queueOf_update hwindow, Function.update_of_ne (hne b (List.mem_append_left _ hb))]
          exact hempty b (List.mem_cons_of_mem a hb)
    refine ⟨t, ?_, htlisted, htqueued, hperm, ?_, ?_, fun b hb => ?_⟩
    · rw [Windows.exitWindows, if_pos ha]
      dsimp only
      rw [hu]
      exact ht
    · rw [hprocess, ← hu]
      rfl
    · rw [hprocs, ← hu]
      rfl
    · rw [hsame b hb, hwindow, Function.update_of_ne (hne b (List.mem_append_right _ hb))]

/-! The calls. -/

namespace WindowsInv

theorem findWindow_cases (h : WindowsInv s) (id : BitVec 32) :
    s.findWindow id = some none ∨
      ∃ a win, s.findWindow id = some (some (a, win)) ∧ a ∈ s.windows ∧ s.window a = some win := by
  rcases findEntry_cases (p := fun win : GuiWindow => win.id = id) h.listed.live with hnone |
    ⟨a, win, hfound⟩
  · exact .inl hnone
  · obtain ⟨hmem, hwin, -⟩ := mem_of_findEntry hfound
    exact .inr ⟨a, win, hfound, hmem, hwin⟩

theorem create (h : WindowsInv s) {ownerPid : BitVec 32} {title : Option String}
    {x y width height : BitVec 32}
    {mem procMem : Option ℕ}
    (hallowed : WindowCall.Allowed s (.create ownerPid title x y width height mem procMem))
    (hsafe : WindowCall.Safe s (.create ownerPid title x y width height mem procMem)) :
    ∃ t ret, s.guiServerCreateWindow ownerPid title x y width height mem procMem = some (t, ret) ∧
      WindowsInv t := by
  unfold Windows.guiServerCreateWindow
  by_cases hinit : s.initialized = false ∨ title = none
  · exact ⟨s, _, if_pos hinit, h⟩
  rw [if_neg hinit]
  cases mem with
  | none => exact ⟨s, _, rfl, h⟩
  | some a =>
    rw [not_or] at hinit
    obtain ⟨hmapping, hcount⟩ := hsafe (Bool.eq_true_of_not_eq_false hinit.1) hinit.2
        (Option.some_ne_none a)
    have hfresh : s.window a = none := hallowed.1 a rfl
    have hnot := h.listed.not_mem hfresh
    have hsmall : s.windows.length + 1 < 2 ^ 31 := by
      have hlt := h.listed.small
      rw [h.listed.count, toInt_ofNat (by omega)] at hcount
      omega
    generalize hwin : GuiWindow.mk s.nextWindowId ownerPid x y width height true [] = win
    have hpid : win.ownerPid = ownerPid := by rw [← hwin]
    have hempty : win.eventQueue = [] := by rw [← hwin]
    dsimp only
    have hfind : (s.addWindow a win).findProcess ownerPid = s.findProcess ownerPid := rfl
    rw [hfind]
    rcases h.mapped.findProcess_cases ownerPid with ⟨hnone, hother⟩ |
      ⟨p, proc, hfound, hp, hproc, hppid⟩
    · rw [hnone]
      cases procMem with
      | none => exact absurd hnone (hmapping rfl)
      | some p =>
        refine ⟨_, _, rfl, h.listed.push hfresh hsmall rfl rfl rfl, ?_,
          h.queued.push hnot hempty rfl rfl rfl⟩
        refine h.mapped.pushNew hnot (hallowed.2 p rfl) ?_ rfl ?_ rfl rfl
        · rw [hpid]
          exact hother
        · rw [hpid]
          rfl
    · rw [hfound]
      refine ⟨_, _, rfl, h.listed.push hfresh hsmall rfl rfl rfl, ?_,
        h.queued.push hnot hempty rfl rfl rfl⟩
      exact h.mapped.push hnot hp hproc (hpid.trans hppid.symm) rfl rfl rfl rfl

theorem destroy (h : WindowsInv s) (id : BitVec 32) :
    ∃ t ret, s.guiServerDestroyWindow id = some (t, ret) ∧ WindowsInv t := by
  unfold Windows.guiServerDestroyWindow
  by_cases hinit : s.initialized = false
  · exact ⟨s, _, if_pos hinit, h⟩
  rw [if_neg hinit]
  rcases h.findWindow_cases id with hnone | ⟨a, win, hfound, ha, hwin⟩
  · rw [hnone]
    exact ⟨s, _, rfl, h⟩
  rw [hfound]
  dsimp only
  generalize hu : ({ s with windows := s.windows.erase a, windowCount := s.windowCount - 1 } :
    Windows) = u
  obtain ⟨p, proc, hdel, hmapped⟩ := h.mapped.delOwned (t := u) h.listed.nodup ha (by rw [← hu])
      (by rw [← hu])
  rw [hdel]
  have hperm := (flatMap_perm_erase (f := s.queueOf) ha).symm.trans h.queued.events
  rw [queueOf_of_window hwin] at hperm
  obtain ⟨cache, event, hfree, hrest⟩ := freeEvents_spec
    (s := u.setProcess p (some ⟨proc.pid, proc.windows.erase a⟩)) (by rw [← hu]; exact hperm)
  have hcache : (s.queueOf a ++ cache).Perm s.eventCache := by
    rw [queueOf_of_window hwin]
    exact (hrest.symm.append_left _).trans hperm
  subst hu
  rw [Option.bind_eq_bind, Option.bind_some, hfree]
  exact ⟨_, 0, rfl, h.listed.erase ha rfl rfl rfl, hmapped _ rfl rfl rfl rfl,
    h.queued.erase h.listed.nodup ha hcache rfl rfl rfl⟩

theorem post (h : WindowsInv s) {id : BitVec 32} {event : Option GuiEvent} {mem : Option ℕ}
    {now : BitVec 64}
    (hallowed : WindowCall.Allowed s (.post id event mem now)) :
    ∃ t ret, s.guiServerPostEvent id event mem now = some (t, ret) ∧ WindowsInv t := by
  unfold Windows.guiServerPostEvent
  cases event with
  | none => exact ⟨s, _, rfl, h⟩
  | some event =>
    dsimp only
    by_cases hinit : s.initialized = false
    · exact ⟨s, _, if_pos hinit, h⟩
    rw [if_neg hinit]
    rcases h.findWindow_cases id with hnone | ⟨a, win, hfound, ha, hwin⟩
    · rw [hnone]
      exact ⟨s, _, rfl, h⟩
    rw [hfound]
    cases mem with
    | none => exact ⟨s, _, rfl, h⟩
    | some e =>
      refine ⟨_, 0, rfl, ⟨h.listed.nodup, fun b hb => ?_, h.listed.count, h.listed.small⟩,
        h.mapped.congr rfl rfl rfl fun b x hx => ?_,
        h.queued.post h.listed.nodup ha hwin (hallowed e rfl) rfl rfl rfl rfl⟩
      · simp only [Windows.setWindow]
        by_cases hba : b = a
        · rw [hba, Function.update_self]
          rfl
        · rw [Function.update_of_ne hba]
          exact h.listed.live b hb
      · simp only [Windows.setWindow]
        by_cases hba : b = a
        · subst hba
          obtain rfl := Option.some.inj (hwin.symm.trans hx)
          exact ⟨_, Function.update_self .., rfl⟩
        · exact ⟨x, by rwa [Function.update_of_ne hba], rfl⟩

theorem exit (h : WindowsInv s) {pid : BitVec 32} (hsafe : WindowCall.Safe s (.exit pid)) :
    ∃ t, s.guiServerProcessExit pid = some t ∧ WindowsInv t := by
  unfold Windows.guiServerProcessExit
  by_cases hinit : s.initialized = false
  · exact ⟨s, if_pos hinit, h⟩
  rw [if_neg hinit]
  rcases h.mapped.findProcess_cases pid with ⟨hnone, -⟩ | ⟨p, proc, hfound, hp, hproc, -⟩
  · rw [hnone]
    exact ⟨s, rfl, h⟩
  have howned := (flatMap_perm_erase (f := s.ownedBy) hp).symm.trans h.mapped.owned
  rw [ownedBy_of_process hproc] at howned
  obtain ⟨t, ht, hlisted, hqueued, hperm, hprocess, hprocs, hsame⟩ :=
    exitWindows_spec howned h.listed h.queued (hsafe p proc hfound)
  rw [hfound]
  dsimp only
  rw [ht]
  refine ⟨_, rfl, ⟨hlisted.nodup, hlisted.live, hlisted.count, hlisted.small⟩, ?_,
    ⟨hqueued.nodup, hqueued.events⟩⟩
  -- The mappings that stay are those of other processes.
  have hne : ∀ q ∈ s.processWindows.erase p, q ≠ p := fun q hq =>
    ne_of_mem_of_not_mem hq h.mapped.nodup.not_mem_erase
  have hread : ∀ q ∈ s.processWindows.erase p, Function.update t.process p none q = s.process q :=
      fun q hq => by
    rw [Function.update_of_ne (hne q hq), hprocess]
  have howns : ∀ q ∈ s.processWindows.erase p, s.ownedBy q =
      Windows.ownedBy ({ t with processWindows := t.processWindows.erase p }.setProcess p none) q :=
        fun q hq => by
    rw [Windows.ownedBy, Windows.ownedBy]
    dsimp only [Windows.setProcess]
    rw [hread q hq]
  constructor
  · dsimp only [Windows.setProcess]
    rw [hprocs]
    exact h.mapped.nodup.erase p
  · dsimp only [Windows.setProcess]
    rw [hprocs]
    intro q hq
    rw [hread q hq]
    exact h.mapped.live q (List.mem_of_mem_erase hq)
  · dsimp only [Windows.setProcess]
    rw [hprocs]
    intro q hq r hr x y hx hy
    rw [hread q hq] at hx
    rw [hread r hr] at hy
    exact h.mapped.pids q (List.mem_of_mem_erase hq) r (List.mem_of_mem_erase hr) x y hx hy
  · rw [List.flatMap_congr howns] at hperm
    dsimp only [Windows.setProcess] at hperm ⊢
    rwa [hprocs]
  · dsimp only [Windows.setProcess]
    rw [hprocs]
    intro q hq x hx a ha
    rw [hread q hq] at hx
    have hrest : a ∈ (s.processWindows.erase p).flatMap s.ownedBy :=
      List.mem_flatMap.mpr ⟨q, hq, by rwa [ownedBy_of_process hx]⟩
    rw [hsame a hrest]
    exact h.mapped.owner q (List.mem_of_mem_erase hq) x hx a ha

theorem step (h : WindowsInv s) {c : WindowCall} (hallowed : c.Allowed s) (hsafe : c.Safe s) :
    ∃ t, c.step s = some t ∧ WindowsInv t := by
  cases c with
  | create ownerPid title x y width height mem procMem =>
    obtain ⟨t, ret, ht, hinv⟩ := h.create hallowed hsafe
    exact ⟨t, by rw [WindowCall.step, ht]; rfl, hinv⟩
  | destroy id =>
    obtain ⟨t, ret, ht, hinv⟩ := h.destroy id
    exact ⟨t, by rw [WindowCall.step, ht]; rfl, hinv⟩
  | post id event mem now =>
    obtain ⟨t, ret, ht, hinv⟩ := h.post hallowed
    exact ⟨t, by rw [WindowCall.step, ht]; rfl, hinv⟩
  | exit pid => exact h.exit hsafe

theorem start (initialized : Bool) : WindowsInv { initialized := initialized } where
  listed := ⟨List.nodup_nil, fun _ ha => absurd ha List.not_mem_nil, rfl, Nat.two_pow_pos 31⟩
  mapped := ⟨List.nodup_nil, fun _ hp => absurd hp List.not_mem_nil, fun _ hp =>
    absurd hp List.not_mem_nil,
    .refl _, fun _ hp => absurd hp List.not_mem_nil⟩
  queued := ⟨List.nodup_nil, .refl _⟩

end WindowsInv

structure Bookkept (s : Windows) : Prop where
  windows : s.windows.Nodup ∧ ∀ a ∈ s.windows, (s.window a).isSome
  owned : (s.processWindows.flatMap s.ownedBy).Perm s.windows
  owner : ∀ p ∈ s.processWindows, ∀ a ∈ s.ownedBy p, ∃ proc win,
    s.process p = some proc ∧ s.window a = some win ∧ win.ownerPid = proc.pid
  count : s.windowCount.toInt = s.windows.length
  mappings : s.processWindows.Nodup ∧ ∀ p ∈ s.processWindows, ∀ q ∈ s.processWindows, ∀ x y,
    s.process p = some x → s.process q = some y → x.pid = y.pid → p = q
  events : s.eventCache.Nodup ∧ s.eventCache.length = (s.windows.map fun a => (s.queueOf a).length).sum

theorem WindowsInv.bookkept (h : WindowsInv s) : Bookkept s where
  windows := ⟨h.listed.nodup, h.listed.live⟩
  owned := h.mapped.owned
  owner p hp a ha := by
    obtain ⟨proc, hproc⟩ := Option.isSome_iff_exists.mp (h.mapped.live p hp)
    rw [ownedBy_of_process hproc] at ha
    obtain ⟨win, hwin, hpid⟩ := h.mapped.owner p hp proc hproc a ha
    exact ⟨proc, win, hproc, hwin, hpid⟩
  count := by
    have hsmall := h.listed.small
    rw [h.listed.count, toInt_ofNat (by omega)]
  mappings := ⟨h.mapped.nodup, h.mapped.pids⟩
  events := ⟨h.queued.nodup, by rw [← h.queued.events.length_eq, List.length_flatMap]⟩

theorem windows_bookkept {initialized : Bool} {calls : List WindowCall}
    (hcalls : Meets WindowCall.step (fun s c => c.Allowed s ∧ c.Safe s)
      { initialized := initialized } calls) :
    ∃ s, calls.foldlM WindowCall.step { initialized := initialized } = some s ∧ Bookkept s := by
  obtain ⟨s, hrun, hinv⟩ := hcalls.foldlM (I := fun _ => WindowsInv) (N := calls.length) (k := 0)
    (fun k s c _ hs hc => hs.step hc.1 hc.2) (WindowsInv.start initialized) (by omega)
  exact ⟨s, hrun, hinv.bookkept⟩

def keyDown : GuiEvent := ⟨.keyDown, 0, 0, .key 30 30 false false false⟩

theorem windows_bookkept_one_window : ∃ s,
    [WindowCall.create 4 (some "shell") 0 0 640 480 (some 64) (some 96),
      .post 1 (some keyDown) (some 16) 5,
      .destroy 1, .exit 4].foldlM WindowCall.step { initialized := true } = some s ∧ Bookkept s := by
  refine windows_bookkept ⟨⟨⟨?_, ?_⟩, fun _ _ _ =>
    ⟨fun h => absurd h (Option.some_ne_none _), by decide⟩⟩,
    fun t ht => ?_⟩
  · rintro _ ⟨⟩
    rfl
  · rintro _ ⟨⟩
    rfl
  cases ht
  refine ⟨⟨?_, trivial⟩, fun t ht => ?_⟩
  · rintro _ ⟨⟩
    exact List.not_mem_nil
  cases ht
  refine ⟨⟨trivial, trivial⟩, fun t ht => ?_⟩
  cases ht
  refine ⟨⟨trivial, ?_⟩, fun t ht => trivial⟩
  rintro _ _ ⟨⟩ a ha
  exact absurd ha List.not_mem_nil

/-- A window whose process gets no mapping is on the list of all windows only, and its destruction
follows null pointers. The events of a process that exits are never freed. -/
theorem unmapped_window_and_leak :
    (∃ s, [WindowCall.create 4 (some "shell") 0 0 640 480 (some 64) none].foldlM WindowCall.step
        { initialized := true } = some s ∧
      s.windows = [64] ∧ s.processWindows = [] ∧ s.guiServerDestroyWindow 1 = none) ∧
    ∃ s, [WindowCall.create 4 (some "shell") 0 0 640 480 (some 64) (some 96),
        .post 1 (some keyDown) (some 16) 5, .exit 4].foldlM WindowCall.step
          { initialized := true } = some s ∧
      s.windows = [] ∧ s.eventCache = [16] :=
  ⟨⟨_, rfl, rfl, rfl, rfl⟩, _, rfl, rfl, rfl⟩

end GcAos.Gui
