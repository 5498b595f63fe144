import GcAos.Gui.Surfaces
import GcAos.Lib.Bits

/-! The reference counts of surfaces over every sequence of calls. -/

namespace GcAos.Gui
open Lib

variable {c : Clients} {a : ℕ} {surf : GuiSurface} {id : BitVec 32}

structure SurfaceOk (c : Clients) (a : ℕ) (surf : GuiSurface) : Prop where
  surface : c.server.surface a = some surf
  pixels : c.server.pixels surf.data = some surf.size
  refcount : surf.refcount.toInt = 1 + c.maps a

structure ClientsInv (c : Clients) : Prop where
  nodup : c.server.surfaces.Nodup
  listed : ∀ a ∈ c.server.surfaces, ∃ surf, c.server.surface a = some surf ∧ surf.data ≠ 0 ∧
    c.server.pixels surf.data = some surf.size ∧ surf.refcount = .ofNat 32 (c.maps a + 1) ∧
      c.maps a + 1 < 2 ^ 31
  unlisted : ∀ a ∉ c.server.surfaces, c.maps a = 0
  apart : ∀ a ∈ c.server.surfaces, ∀ b ∈ c.server.surfaces, a ≠ b → ∀ x y, c.server.surface a = some x →
    c.server.surface b = some y → x.data ≠ y.data

namespace ClientsInv

theorem surfaceOk (h : ClientsInv c) (ha : a ∈ c.server.surfaces) : ∃ surf, SurfaceOk c a surf := by
  obtain ⟨surf, hsurf, -, hpixels, hcount, hsmall⟩ := h.listed a ha
  refine ⟨surf, hsurf, hpixels, ?_⟩
  rw [hcount, toInt_ofNat (by omega)]
  push_cast
  exact add_comm ..

theorem allocated (h : ClientsInv c) : ∀ a ∈ c.server.surfaces, (c.server.surface a).isSome :=
    fun a ha => by
  obtain ⟨surf, hsurf, -⟩ := h.listed a ha
  rw [hsurf]
  rfl

theorem find_cases (h : ClientsInv c) (id : BitVec 32) :
    (c.server.find id = some none ∧ c.surfaceOf id = none) ∨
      ∃ a surf, c.server.find id = some (some (a, surf)) ∧ c.surfaceOf id = some a ∧
        a ∈ c.server.surfaces ∧ c.server.surface a = some surf := by
  rcases findEntry_cases (p := fun surf : GuiSurface => surf.id = id) h.allocated with hnone |
    ⟨a, surf, hfound⟩
  · exact .inl ⟨hnone, by rw [Clients.surfaceOf, Surfaces.find, hnone]; rfl⟩
  · obtain ⟨hmem, hsurf, -⟩ := mem_of_findEntry hfound
    exact .inr ⟨a, surf, hfound, by rw [Clients.surfaceOf, Surfaces.find, hfound]; rfl, hmem, hsurf⟩

theorem recount (h : ClientsInv c) (ha : a ∈ c.server.surfaces) (hsurf : c.server.surface a = some surf)
    {r : BitVec 32} {n : ℕ} (hr : r = .ofNat 32 (n + 1)) (hn : n + 1 < 2 ^ 31) :
    ClientsInv ⟨c.server.setSurface a (some { surf with refcount := r }),
      Function.update c.maps a n⟩ := by
  have hread : ∀ b x, (c.server.setSurface a (some { surf with refcount := r })).surface b = some x →
      ∃ y, c.server.surface b = some y ∧ y.data = x.data := by
    intro b x hx
    by_cases hb : b = a
    · subst hb
      simp only [Surfaces.setSurface, Function.update_self] at hx
      exact ⟨surf, hsurf, by rw [← Option.some.inj hx]⟩
    · simp only [Surfaces.setSurface, Function.update_of_ne hb] at hx
      exact ⟨x, hx, rfl⟩
  refine ⟨h.nodup, fun b hb => ?_, fun b hb => ?_, fun b hb d hd hne x y hx hy => ?_⟩
  · by_cases hba : b = a
    · subst hba
      obtain ⟨x, hx, hdata, hpixels, -⟩ := h.listed b hb
      rw [hsurf] at hx
      obtain rfl := Option.some.inj hx
      simp only [Surfaces.setSurface, Function.update_self]
      exact ⟨_, rfl, hdata, hpixels, hr, hn⟩
    · simp only [Surfaces.setSurface, Function.update_of_ne hba]
      exact h.listed b hb
  · have hba : b ≠ a := (ne_of_mem_of_not_mem ha hb).symm
    simp only [Function.update_of_ne hba]
    exact h.unlisted b hb
  · obtain ⟨x', hx', hxdata⟩ := hread b x hx
    obtain ⟨y', hy', hydata⟩ := hread d y hy
    rw [← hxdata, ← hydata]
    exact h.apart b hb d hd hne x' y' hx' hy'

theorem create (h : ClientsInv c) (pid : ℤ) (width height : BitVec 32) (shared : Bool)
    {mem data : Option ℕ}
    (hallowed : SurfaceCall.Allowed c (.create pid width height shared mem data)) :
    ClientsInv
      { c with server := (c.server.guiServerCreateSurface pid width height shared mem data).1 } := by
  obtain ⟨hmem, hdata⟩ := hallowed
  unfold Surfaces.guiServerCreateSurface
  split_ifs
  · exact h
  cases mem with
  | none => exact h
  | some a =>
    cases data with
    | none => exact h
    | some p =>
      have ha := hmem a rfl
      obtain ⟨hp, hfree⟩ := hdata p rfl
      have hnew : a ∉ c.server.surfaces := by
        intro hmem
        have := h.allocated a hmem
        rw [ha] at this
        exact Bool.noConfusion this
      -- The pixels of the surfaces that exist are elsewhere.
      have hold : ∀ b ∈ c.server.surfaces, ∀ x, c.server.surface b = some x → x.data ≠ p := by
        rintro b hb x hx rfl
        obtain ⟨x', hx', -, hpixels, -⟩ := h.listed b hb
        rw [hx] at hx'
        rw [← Option.some.inj hx', hfree] at hpixels
        exact absurd hpixels (Option.some_ne_none _).symm
      refine ⟨List.nodup_cons.mpr ⟨hnew, h.nodup⟩, List.forall_mem_cons.mpr ⟨?_, fun b hb => ?_⟩,
        fun b hb => h.unlisted b fun hmem => hb (List.mem_cons_of_mem a hmem), ?_⟩
      · simp only [Surfaces.setSurface, Surfaces.setPixels, Function.update_self]
        refine ⟨_, rfl, hp, Function.update_self .., ?_, ?_⟩
        · rw [h.unlisted a hnew]
          rfl
        · rw [h.unlisted a hnew]
          decide
      · obtain ⟨x, hx, hxdata, hpixels, hcount⟩ := h.listed b hb
        simp only [Surfaces.setSurface, Surfaces.setPixels,
          Function.update_of_ne (ne_of_mem_of_not_mem hb hnew)]
        exact ⟨x, hx, hxdata, by rwa [Function.update_of_ne (hold b hb x hx)], hcount⟩
      · intro b hb d hd hne x y hx hy
        simp only [Surfaces.setSurface, Surfaces.setPixels] at hx hy
        rcases List.mem_cons.mp hb with rfl | hb
        · rcases List.mem_cons.mp hd with rfl | hd
          · exact absurd rfl hne
          · rw [Function.update_self] at hx
            rw [Function.update_of_ne hne.symm] at hy
            rw [← Option.some.inj hx]
            exact (hold d hd y hy).symm
        · have hba := ne_of_mem_of_not_mem hb hnew
          rw [Function.update_of_ne hba] at hx
          rcases List.mem_cons.mp hd with rfl | hd
          · rw [Function.update_self] at hy
            rw [← Option.some.inj hy]
            exact hold b hb x hx
          · rw [Function.update_of_ne (ne_of_mem_of_not_mem hd hnew)] at hy
            exact h.apart b hb d hd hne x y hx hy

theorem free (h : ClientsInv c) (ha : a ∈ c.server.surfaces) (hsurf : c.server.surface a = some surf)
    (hmaps : c.maps a = 0) :
    ClientsInv { c with server :=
      ({ c.server with surfaces := c.server.surfaces.erase a,
                       surfaceCount :=
                         c.server.surfaceCount - 1 }.setPixels surf.data none).setSurface a none } := by
  have hmem : ∀ b ∈ c.server.surfaces.erase a, b ∈ c.server.surfaces ∧ b ≠ a := fun b hb =>
    ⟨List.mem_of_mem_erase hb, ne_of_mem_of_not_mem hb h.nodup.not_mem_erase⟩
  refine ⟨h.nodup.erase a, fun b hb => ?_, fun b hb => ?_, fun b hb d hd hne x y hx hy => ?_⟩
  · obtain ⟨hb, hba⟩ := hmem b hb
    obtain ⟨x, hx, hxdata, hpixels, hcount⟩ := h.listed b hb
    simp only [Surfaces.setSurface, Surfaces.setPixels, Function.update_of_ne hba]
    exact ⟨x, hx, hxdata,
      by rwa [Function.update_of_ne (h.apart b hb a ha hba x surf hx hsurf)], hcount⟩
  · by_cases hba : b = a
    · rw [hba]
      exact hmaps
    · exact h.unlisted b fun hmem => hb ((List.mem_erase_of_ne hba).mpr hmem)
  · obtain ⟨hb, hba⟩ := hmem b hb
    obtain ⟨hd, hda⟩ := hmem d hd
    simp only [Surfaces.setSurface, Surfaces.setPixels, Function.update_of_ne hba] at hx
    simp only [Surfaces.setSurface, Surfaces.setPixels, Function.update_of_ne hda] at hy
    exact h.apart b hb d hd hne x y hx hy

theorem destroy (h : ClientsInv c) (id : BitVec 32) :
    (∃ ret, ret ≠ 0 ∧ c.server.guiServerDestroySurface id = some (c.server, ret)) ∨
      ∃ a surf t, SurfaceOk c a surf ∧ c.maps a = 0 ∧
        c.server.guiServerDestroySurface id = some (t, 0) ∧
        t.surface = Function.update c.server.surface a none ∧
        t.pixels = Function.update c.server.pixels surf.data none ∧
          ClientsInv { c with server := t } := by
  unfold Surfaces.guiServerDestroySurface
  by_cases hinit : c.server.initialized = false
  · exact .inl ⟨-einval, by decide, if_pos hinit⟩
  rw [if_neg hinit]
  rcases h.find_cases id with ⟨hnone, -⟩ | ⟨a, surf, hfound, -, ha, hsurf⟩
  · rw [hnone]
    exact .inl ⟨-enoent, by decide, rfl⟩
  · rw [hfound]
    obtain ⟨x, hx⟩ := h.surfaceOk ha
    obtain rfl := Option.some.inj (hx.surface.symm.trans hsurf)
    dsimp only
    by_cases hbusy : 1 < x.refcount.toInt
    · exact .inl ⟨-ebusy, by decide, if_pos hbusy⟩
    · have hcount := hx.refcount
      have hmaps : c.maps a = 0 := by omega
      have hdata : x.data ≠ 0 := by
        obtain ⟨y, hy, hdata, -⟩ := h.listed a ha
        rwa [Option.some.inj (hsurf.symm.trans hy)]
      rw [if_neg hbusy, if_neg hdata]
      exact .inr ⟨a, x, _, hx, hmaps, rfl, rfl, rfl, h.free ha hsurf hmaps⟩

theorem map (h : ClientsInv c) (mapping : ℕ → ℕ → Option ℕ) (addr : Bool)
    (hsafe : SurfaceCall.Safe c (.map mapping id addr)) :
    ∃ t, c.step (.map mapping id addr) = some t ∧ ClientsInv t := by
  unfold Clients.step Surfaces.guiServerMapSurface
  dsimp only
  by_cases hinit : c.server.initialized = false ∨ addr = false
  · rw [if_pos hinit]
    exact ⟨_, rfl, h⟩
  rw [if_neg hinit]
  rcases h.find_cases id with ⟨hnone, -⟩ | ⟨a, surf, hfound, hof, ha, hsurf⟩
  · rw [hnone]
    exact ⟨_, rfl, h⟩
  · rw [hfound]
    dsimp only
    by_cases hshared : surf.shared = false
    · rw [if_pos hshared]
      exact ⟨_, rfl, h⟩
    rw [if_neg hshared]
    cases hmapping : mapping surf.data surf.size with
    | none => exact ⟨_, rfl, h⟩
    | some userAddr =>
      refine ⟨_, rfl, ?_⟩
      rw [if_pos rfl, Clients.count, hof]
      have hsmall := hsafe (Bool.eq_true_of_not_eq_false fun h => hinit (.inr h)) a hof surf hsurf
        (Bool.eq_true_of_not_eq_false hshared) (Option.isSome_of_eq_some hmapping)
      obtain ⟨x, hx, -, -, hcount, -⟩ := h.listed a ha
      rw [hsurf] at hx
      obtain rfl := Option.some.inj hx
      refine h.recount ha hsurf ?_ (by omega)
      rw [hcount, BitVec.ofNat_add (c.maps a + 1) 1]
      rfl

theorem unmap (h : ClientsInv c) (hsafe : SurfaceCall.Safe c (.unmap id)) :
    ∃ t, c.step (.unmap id) = some t ∧ ClientsInv t := by
  unfold Clients.step Surfaces.guiServerUnmapSurface
  dsimp only
  by_cases hinit : c.server.initialized = false
  · rw [if_pos hinit]
    exact ⟨_, rfl, h⟩
  rw [if_neg hinit]
  rcases h.find_cases id with ⟨hnone, -⟩ | ⟨a, surf, hfound, hof, ha, hsurf⟩
  · rw [hnone]
    exact ⟨_, rfl, h⟩
  · rw [hfound]
    refine ⟨_, rfl, ?_⟩
    rw [if_pos rfl, Clients.count, hof]
    have hpos := hsafe a hof
    obtain ⟨x, hx, -, -, hcount, hsmall⟩ := h.listed a ha
    rw [hsurf] at hx
    obtain rfl := Option.some.inj hx
    refine h.recount ha hsurf ?_ (by omega)
    rw [hcount, Nat.sub_add_cancel hpos, BitVec.ofNat_add]
    exact BitVec.add_sub_cancel ..

theorem step (h : ClientsInv c) {call : SurfaceCall} (hallowed : call.Allowed c) (hsafe : call.Safe c) :
    ∃ t, c.step call = some t ∧ ClientsInv t := by
  cases call with
  | create pid width height shared mem data => exact ⟨_, rfl, h.create pid width height shared hallowed⟩
  | destroy id =>
    rcases h.destroy id with ⟨ret, -, hret⟩ | ⟨a, surf, t, -, -, ht, -, -, hinv⟩
    · exact ⟨c, by rw [Clients.step, hret]; rfl, h⟩
    · exact ⟨_, by rw [Clients.step, ht]; rfl, hinv⟩
  | map mapping id addr => exact h.map mapping addr hsafe
  | unmap id => exact h.unmap hsafe

end ClientsInv

def Clients.start (initialized : Bool) : Clients := { server := { initialized := initialized } }

theorem ClientsInv.start (initialized : Bool) : ClientsInv (Clients.start initialized) where
  nodup := List.nodup_nil
  listed _ ha := absurd ha List.not_mem_nil
  unlisted _ _ := rfl
  apart _ ha := absurd ha List.not_mem_nil

theorem mapped_not_freed {initialized : Bool} {calls : List SurfaceCall}
    (hcalls : Meets Clients.step (fun c call => call.Allowed c ∧ call.Safe c)
      (.start initialized) calls) :
    ∃ c, calls.foldlM Clients.step (.start initialized) = some c ∧
      (∀ a ∈ c.server.surfaces, ∃ surf, SurfaceOk c a surf) ∧
      (∀ a, 0 < c.maps a → a ∈ c.server.surfaces) ∧
      ∀ id t, c.server.guiServerDestroySurface id = some (t, 0) →
        ∃ a surf, SurfaceOk c a surf ∧ c.maps a = 0 ∧
          t.surface = Function.update c.server.surface a none ∧
          t.pixels = Function.update c.server.pixels surf.data none := by
  obtain ⟨c, hrun, hinv⟩ := hcalls.foldlM (I := fun _ => ClientsInv) (N := calls.length) (k := 0)
    (fun k c call _ hc hcall => hc.step hcall.1 hcall.2) (ClientsInv.start initialized) (by omega)
  refine ⟨c, hrun, fun a ha => hinv.surfaceOk ha, fun a hpos => ?_, fun id t ht => ?_⟩
  · by_contra ha
    exact hpos.ne' (hinv.unlisted a ha)
  · rcases hinv.destroy id with ⟨ret, hne, hret⟩ | ⟨a, surf, t', hok, hmaps, ht', hsurface, hpixels, -⟩
    · exact absurd (pair_inj (hret.symm.trans ht)).2 hne
    · obtain rfl := (pair_inj (ht.symm.trans ht')).1
      exact ⟨a, surf, hok, hmaps, hsurface, hpixels⟩

theorem mapped_not_freed_one_map : ∃ c,
    [SurfaceCall.create 4 16 16 true (some 64) (some 4096),
      .map (fun kaddr _ => some (kaddr + 65536)) 1 true,
      .destroy 1, .unmap 1].foldlM Clients.step (.start true) = some c ∧
    (∀ a ∈ c.server.surfaces, ∃ surf, SurfaceOk c a surf) ∧
    (∀ a, 0 < c.maps a → a ∈ c.server.surfaces) ∧
    ∀ id t, c.server.guiServerDestroySurface id = some (t, 0) →
      ∃ a surf, SurfaceOk c a surf ∧ c.maps a = 0 ∧
        t.surface = Function.update c.server.surface a none ∧
        t.pixels = Function.update c.server.pixels surf.data none := by
  refine mapped_not_freed ⟨⟨⟨?_, ?_⟩, trivial⟩, fun t ht => ?_⟩
  · rintro _ ⟨⟩
    rfl
  · rintro _ ⟨⟩
    exact ⟨by decide, rfl⟩
  cases ht
  refine ⟨⟨trivial, ?_⟩, fun t ht => ?_⟩
  · rintro - _ ⟨⟩ - - - -
    decide
  cases ht
  refine ⟨⟨trivial, trivial⟩, fun t ht => ?_⟩
  cases ht
  refine ⟨⟨trivial, ?_⟩, fun t ht => trivial⟩
  rintro _ ⟨⟩
  decide

/-- An unmap without a map: the count of the new surface is 0 instead of 1, and once there is a way to
map, a surface is destroyed that is mapped. -/
theorem unmap_without_map :
    (∃ c surf, [SurfaceCall.create 4 16 16 true (some 64) (some 4096),
        .map Surfaces.vmmMapToUserspace 1 true, .unmap 1].foldlM Clients.step (.start true) = some c ∧
      c.server.surface 64 = some surf ∧ surf.refcount = 0 ∧ c.maps 64 = 0) ∧
    ∃ c t, [SurfaceCall.create 4 16 16 true (some 64) (some 4096), .unmap 1,
        .map (fun kaddr _ => some (kaddr + 65536)) 1 true].foldlM Clients.step (.start true) = some c ∧
      c.maps 64 = 1 ∧ c.server.guiServerDestroySurface 1 = some (t, 0) ∧ t.surface 64 = none :=
  ⟨⟨_, _, rfl, rfl, rfl, rfl⟩, _, _, rfl, rfl, rfl, rfl⟩

end GcAos.Gui
