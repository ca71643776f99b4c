/-
  EchOS.Kernel.Memory.PhysicalFrees

  Lists of `frame_free` calls.  All a list does is clear the bits of the managed
  frames its addresses lie in (`freeEach_spec`).  The layout of a `pmm` that
  satisfies the invariant and its bitmap determine it, counters included
  (`Inv.eq_of_bits`), so lists of the same frames do the same, and freeing what
  was allocated brings the old `pmm` back.
-/
import EchOS.Kernel.Memory.FirstFit
import EchOS.Kernel.Memory.PhysicalTakes

namespace EchOS

open PackedBits (Words)

/-- With the bitmap given, the counter is. -/
theorem PmBlock.eq_of_layout {b c : PmBlock} {bitmap : Words 64} (hb : b.Ok bitmap)
    (hc : c.Ok bitmap) (hlayout : b.layout = c.layout) : b = c := by
  unfold PmBlock.layout at hlayout
  obtain ⟨haddress, htotal, _, hmap, htype, hattributes⟩ := PmBlock.mk.inj hlayout
  have hfree : b.framesFree = c.framesFree := by
    by_cases hb0 : b.map = none
    · rw [hb.unmanaged hb0, hc.unmanaged (hmap ▸ hb0)]
    · apply BitVec.eq_of_toNat_eq
      rw [hb.count hb0, hc.count (hmap ▸ hb0), htotal, PmBlock.base, PmBlock.base, hmap]
  obtain ⟨⟩ := b
  obtain ⟨⟩ := c
  simp only at haddress htotal hmap htype hattributes hfree
  rw [haddress, htotal, hmap, htype, hattributes, hfree]

namespace Pmm

theorem Inv.eq_of_bits {pm pm' : Pmm} (hinv : pm.Inv) (hinv' : pm'.Inv)
    (hlayout : pm.layout = pm'.layout)
    (hbits : ∀ k, PackedBits.get pm.bitmap 0 k = PackedBits.get pm'.bitmap 0 k) : pm = pm' := by
  have hbitmap : pm.bitmap = pm'.bitmap := PackedBits.ext_get hbits
  have hlen : pm.blocks.length = pm'.blocks.length := by
    have := congrArg List.length hlayout
    rwa [layout, layout, List.length_map, List.length_map] at this
  have hblocks : pm.blocks = pm'.blocks := by
    refine List.ext_getElem hlen fun i hi hi' => ?_
    have hok := hinv'.ok _ (List.getElem_mem hi')
    rw [← hbitmap] at hok
    refine PmBlock.eq_of_layout (hinv.ok _ (List.getElem_mem hi)) hok ?_
    have := List.getElem_of_eq hlayout (by rw [layout, List.length_map]; exact hi)
    simpa only [layout, List.getElem_map] using this
  obtain ⟨⟩ := pm
  obtain ⟨⟩ := pm'
  exact congrArg₂ Pmm.mk hblocks hbitmap

/-- `frame_free` on each address of the list. -/
def freeEach (pm : Pmm) (addresses : List Word) : Except Abort Pmm :=
  addresses.foldlM frameFree pm

/-- Bit `k` of the storage is that of the managed frame in which `address` lies. -/
def BitOf (layout : List PmBlock) (address : Word) (k : Nat) : Prop :=
  ∃ b ∈ layout, b.map ≠ none ∧ b.Covers address ∧ k = 64 * b.base + b.frameIndex address

theorem bitOf_layout {pm : Pmm} {address : Word} {k : Nat} :
    BitOf pm.layout address k ↔ ∃ b ∈ pm.blocks, b.map ≠ none ∧ b.Covers address ∧
      k = 64 * b.base + b.frameIndex address := by
  unfold BitOf layout
  simp only [List.mem_map, exists_exists_and_eq_and]
  rfl

theorem freeEach_singleton (pm : Pmm) (address : Word) :
    pm.freeEach [address] = frameFree pm address := by
  rw [freeEach, List.foldlM_cons]
  exact bind_pure _

section Frees

variable {pm : Pmm} (hinv : pm.Inv)

include hinv

/-- A call clears the bit of the address, if it has one. -/
theorem frameFree_bits (address : Word) :
    ∃ pm', frameFree pm address = .ok pm' ∧ pm'.Inv ∧ pm'.layout = pm.layout ∧
      ∀ k, PackedBits.get pm'.bitmap 0 k = true ↔
        PackedBits.get pm.bitmap 0 k = true ∧ ¬ BitOf pm.layout address k := by
  rcases frameFree_cases hinv address with ⟨hcall, hnone⟩ | ⟨pm', hcall, hreleased⟩
  · refine ⟨pm, hcall, hinv, rfl, fun k => (and_iff_left ?_).symm⟩
    rw [bitOf_layout]
    rintro ⟨b, hb, hmap, hcovers, _⟩
    exact hnone b hb hmap hcovers
  · refine ⟨pm', hcall, hreleased.inv hinv, hreleased.layout_eq, fun k => ?_⟩
    obtain ⟨pre, b, post, hsplit, hmap, hcovers, rfl⟩ := hreleased
    have hb : b ∈ pm.blocks := mem_split hsplit
    have hbit : BitOf pm.layout address k ↔ k = 64 * b.base + b.frameIndex address := by
      rw [bitOf_layout]
      constructor
      · rintro ⟨c, hc, _, hcc, rfl⟩
        rw [covers_unique hinv hc hb hcc hcovers]
      · exact fun hk => ⟨b, hb, hmap, hcovers, hk⟩
    rw [hbit, PackedBits.reset_eq_reset_zero (by decide), PackedBits.get_reset (by decide),
      Bool.and_eq_true, Bool.not_eq_true', decide_eq_false_iff_not, and_comm]

/-- The calls clear the bits of all their addresses. -/
theorem freeEach_spec (addresses : List Word) :
    ∃ pm', pm.freeEach addresses = .ok pm' ∧ pm'.Inv ∧ pm'.layout = pm.layout ∧
      ∀ k, PackedBits.get pm'.bitmap 0 k = true ↔
        PackedBits.get pm.bitmap 0 k = true ∧ ∀ x ∈ addresses, ¬ BitOf pm.layout x k := by
  induction addresses generalizing pm with
  | nil => exact ⟨pm, rfl, hinv, rfl, fun k => (and_iff_left fun x hx => nomatch hx).symm⟩
  | cons address addresses ih =>
      obtain ⟨pm1, hcall, hinv1, hlayout1, hbits1⟩ := frameFree_bits hinv address
      obtain ⟨pm', hrest, hinv', hlayout', hbits'⟩ := ih hinv1
      refine ⟨pm', ?_, hinv', hlayout'.trans hlayout1, fun k => ?_⟩
      · rw [freeEach, List.foldlM_cons, hcall]
        exact hrest
      · rw [hbits', hbits1, hlayout1, List.forall_mem_cons, and_assoc]

end Frees

/-! ## Order, repetition and offsets -/

/-- The bit of an address is that of its page. -/
theorem bitOf_pageBase {layout : List PmBlock} (hal : ∀ b ∈ layout, 4096 ∣ b.address.toNat)
    {address : Word} {k : Nat} : BitOf layout (pageBase address) k ↔ BitOf layout address k := by
  unfold BitOf PmBlock.Covers PmBlock.frameIndex
  refine exists_congr fun b => and_congr_right fun hb => and_congr_right fun _ => ?_
  have halb := hal b hb
  have hpage := pageBase_toNat address
  have hcovers : (b.address.toNat ≤ (pageBase address).toNat ∧ (pageBase address).toNat
        < b.address.toNat + b.framesTotal.toNat * 4096) ↔
      b.address.toNat ≤ address.toNat ∧
        address.toNat < b.address.toNat + b.framesTotal.toNat * 4096 := by
    omega
  have hindex : b.address.toNat ≤ address.toNat →
      ((pageBase address).toNat - b.address.toNat) / 4096
        = (address.toNat - b.address.toNat) / 4096 := by
    omega
  rw [← and_assoc, ← and_assoc, hcovers]
  constructor
  · rintro ⟨⟨h, hend⟩, rfl⟩
    exact ⟨⟨h, hend⟩, by rw [hindex h.1]⟩
  · rintro ⟨⟨h, hend⟩, rfl⟩
    exact ⟨⟨h, hend⟩, by rw [hindex h.1]⟩

end Pmm

/-- **Frees are insensitive to order, repetition and offset.**  Two lists of addresses
    that lie in the same pages leave the same pmm, bitmaps and counters included, when
    `frame_free` is called on each address of the one or of the other. -/
theorem frees_depend_on_frames {pm : Pmm} (hinv : pm.Inv) (hal : pm.Aligned)
    {addresses addresses' : List Word}
    (hpages : ∀ page, page ∈ addresses.map pageBase ↔ page ∈ addresses'.map pageBase) :
    ∃ pm', pm.freeEach addresses = .ok pm' ∧ pm.freeEach addresses' = .ok pm' := by
  obtain ⟨pm1, hcall1, hinv1, hlayout1, hbits1⟩ := Pmm.freeEach_spec hinv addresses
  obtain ⟨pm2, hcall2, hinv2, hlayout2, hbits2⟩ := Pmm.freeEach_spec hinv addresses'
  -- whether a list clears a bit is a question about its pages
  have hclears : ∀ (xs : List Word) k, (∀ x ∈ xs, ¬ Pmm.BitOf pm.layout x k) ↔
      ∀ page ∈ xs.map pageBase, ¬ Pmm.BitOf pm.layout page k := by
    intro xs k
    rw [List.forall_mem_map]
    exact forall₂_congr fun x _ => not_congr (Pmm.bitOf_pageBase hal).symm
  have hsame : pm1 = pm2 := by
    refine hinv1.eq_of_bits hinv2 (hlayout1.trans hlayout2.symm) fun k => ?_
    rw [Bool.eq_iff_iff, hbits1, hbits2, hclears addresses, hclears addresses']
    exact and_congr_right fun _ => forall_congr' fun page => imp_congr_left (hpages page)
  exact ⟨pm1, hcall1, hsame ▸ hcall2⟩

theorem threePagesPmm_inv : threePagesPmm.Inv := buildPmm_inv _ threePagesMap

/-- 0x3000, 0x1000 and 0x1234 against 0x1FFF and 0x3001. -/
theorem frees_depend_on_frames_threePages :
    ∃ pm', threePagesPmm.freeEach [0x3000#64, 0x1000#64, 0x1234#64] = .ok pm' ∧
      threePagesPmm.freeEach [0x1FFF#64, 0x3001#64] = .ok pm' :=
  frees_depend_on_frames threePagesPmm_inv (buildPmm_aligned _ threePagesMap) fun page => by
    have hleft : [0x3000#64, 0x1000#64, 0x1234#64].map pageBase
        = [0x3000#64, 0x1000#64, 0x1000#64] := by decide
    have hright : [0x1FFF#64, 0x3001#64].map pageBase = [0x1000#64, 0x3000#64] := by decide
    rw [hleft, hright]
    simp only [List.mem_cons, List.not_mem_nil, or_false]
    tauto

/-! ## Freeing what was allocated -/

/-- The end of the block, `address + frames_total * frame_size`, does not wrap. -/
def PmBlock.EndFits (b : PmBlock) : Prop :=
  b.address.toNat + b.framesTotal.toNat * 4096 < 2 ^ 64

instance (b : PmBlock) : Decidable b.EndFits := inferInstanceAs (Decidable (_ < _))

namespace Pmm

section Undo

variable {pm pm' : Pmm} (hinv : pm.Inv)

include hinv

/-- `frame_free` finds the frames of a block whose end does not wrap. -/
theorem bitOf_frame {b : PmBlock} (hb : b ∈ pm.blocks) (hmap : b.map ≠ none) (hend : b.EndFits)
    {f : Nat} (hf : f < b.framesTotal.toNat) {k : Nat} :
    BitOf pm.layout (b.frame f) k ↔ k = 64 * b.base + f := by
  have hframe := PmBlock.frame_toNat (hinv.nonWrapping b hb) hf
  unfold PmBlock.EndFits at hend
  have hcovers : b.Covers (b.frame f) := by
    unfold PmBlock.Covers
    omega
  have hindex : b.frameIndex (b.frame f) = f := by
    unfold PmBlock.frameIndex
    omega
  rw [bitOf_layout]
  constructor
  · rintro ⟨c, hc, _, hcc, rfl⟩
    rw [covers_unique hinv hc hb hcc hcovers, hindex]
  · exact fun hk => ⟨b, hb, hmap, hcovers, by rw [hindex, hk]⟩

/-- The block from which a run of `n` frames is taken: the first one with such a run. -/
def FirstWithRun (pm : Pmm) (n : Nat) (b : PmBlock) : Prop :=
  ∃ pre post, pm.blocks = pre ++ b :: post ∧ (∀ c ∈ pre, c.NoRun pm.bitmap n) ∧
    ¬ b.NoRun pm.bitmap n

omit hinv in
/-- There is one such block at most. -/
theorem FirstWithRun.unique {n : Nat} {b c : PmBlock} (hb : pm.FirstWithRun n b)
    (hc : pm.FirstWithRun n c) : b = c := by
  obtain ⟨pre, post, hsplit, hpre, hrun⟩ := hb
  obtain ⟨pre', post', hsplit', hpre', hrun'⟩ := hc
  rcases List.append_eq_append_iff.mp (hsplit.symm.trans hsplit') with
    ⟨mid, heq, htail⟩ | ⟨mid, heq, htail⟩
  · cases mid with
    | nil => exact (List.cons.inj htail).1
    | cons d mid =>
        -- `b` would come before `c`
        obtain ⟨rfl, _⟩ := List.cons.inj htail
        exact absurd (hpre' b (by rw [heq]; simp)) hrun
  · cases mid with
    | nil => exact (List.cons.inj htail).1.symm
    | cons d mid =>
        obtain ⟨rfl, _⟩ := List.cons.inj htail
        exact absurd (hpre c (by rw [heq]; simp)) hrun'

omit hinv in
theorem FirstFit.firstWithRun {n : Nat} {a : Word} (hfit : pm.FirstFit n a pm') :
    ∃ b r, pm.FirstWithRun n b ∧ b.RunAt pm.bitmap n r ∧ a = b.frame r ∧
      ∃ c ∈ pm'.blocks, c.layout = b.layout := by
  obtain ⟨pre, b, post, r, hsplit, hpre, hrun, _, rfl, rfl⟩ := hfit
  exact ⟨b, r, ⟨pre, post, hsplit, hpre, fun hnone => hnone r hrun⟩, hrun, rfl,
    b.claimed n, by simp, rfl⟩

/-- A block that ends at 2^64 cannot be freed into: its end is 0 for `frame_free`. -/
theorem frameFree_top_block {b : PmBlock} (hb : b ∈ pm.blocks)
    (hend : b.address.toNat + b.framesTotal.toNat * 4096 = 2 ^ 64) {address : Word}
    (haddress : b.address.toNat ≤ address.toNat) : frameFree pm address = .ok pm := by
  rcases frameFree_cases hinv address with ⟨hcall, _⟩ | ⟨pm', _, pre, c, post, hsplit, _, hcovers, _⟩
  · exact hcall
  · have hlt := b.address.isLt
    unfold PmBlock.Covers at hcovers
    by_cases hcb : b = c
    · subst hcb
      omega
    · -- the block that covers the address would overlap the top one
      have hapart := hinv.apart.forall hb (mem_split hsplit) hcb
      rcases hapart with h | h | h | h
      · omega
      · omega
      · rw [h] at hend
        simp at hend
        omega
      · rw [h] at hcovers
        simp at hcovers
        omega

/-- Freeing a claimed run gives the pmm from before. -/
theorem FirstFit.freeEach_eq {n : Nat} {a : Word} (hfit : pm.FirstFit n a pm')
    (hends : ∀ b, pm.FirstWithRun n b → b.EndFits) {order : List Word}
    (hperm : order.Perm (runFrames a n)) : pm'.freeEach order = .ok pm := by
  obtain ⟨pm2, hcall, hinv2, hlayout2, hbits2⟩ := freeEach_spec (hfit.inv hinv) order
  have hlayout := hfit.layout_eq
  obtain ⟨pre, b, post, r, hsplit, hpre, hrun, _, rfl, rfl⟩ := hfit
  have hb : b ∈ pm.blocks := mem_split hsplit
  have hend : b.EndFits := hends b ⟨pre, post, hsplit, hpre, fun hnone => hnone r hrun⟩
  have hlast := hrun.2.1
  -- the calls clear the bits of the run
  have horder : ∀ k, (∀ x ∈ order, ¬ BitOf pm.layout x k) ↔
      ∀ i, i < n → k ≠ 64 * b.base + (r + i) := by
    intro k
    constructor
    · intro hnone i hi hk
      refine hnone (runFrame (b.frame r) i) (hperm.mem_iff.mpr (mem_runFrames.mpr ⟨i, hi, rfl⟩)) ?_
      rw [runFrame, ← PmBlock.frame_add]
      exact (bitOf_frame hinv hb hrun.1 hend (by omega)).mpr hk
    · intro hnone x hx hbit
      obtain ⟨i, hi, rfl⟩ := mem_runFrames.mp (hperm.mem_iff.mp hx)
      rw [runFrame, ← PmBlock.frame_add] at hbit
      exact hnone i hi ((bitOf_frame hinv hb hrun.1 hend (by omega)).mp hbit)
  have hsame : pm2 = pm := by
    refine hinv2.eq_of_bits hinv (hlayout2.trans hlayout) fun k => ?_
    rw [Bool.eq_iff_iff, hbits2, hlayout, horder, PmBlock.get_setRange, Bool.or_eq_true,
      decide_eq_true_iff]
    constructor
    · rintro ⟨hin | hold, hnone⟩
      · exact absurd (by omega) (hnone (k - (64 * b.base + r)) (by omega))
      · exact hold
    · refine fun hold => ⟨.inr hold, fun i hi hk => ?_⟩
      -- which were clear before the run was claimed
      have hclear := hrun.2.2 i hi
      rw [PmBlock.used, PackedBits.get_eq_get_zero (by decide), ← hk, hold] at hclear
      cases hclear
  rw [hcall, hsame]

omit hinv in
theorem freeEach_eq_self {order : List Word} (h : ∀ x ∈ order, frameFree pm x = .ok pm) :
    pm.freeEach order = .ok pm := by
  induction order with
  | nil => rfl
  | cons x order ih =>
      rw [freeEach, List.foldlM_cons, h x List.mem_cons_self]
      exact ih fun y hy => h y (List.mem_cons_of_mem _ hy)

/-- Freeing a run in a block that ends at 2^64 does nothing. -/
theorem FirstFit.freeEach_top {n : Nat} {a : Word} (hfit : pm.FirstFit n a pm') {b : PmBlock}
    (hb : pm.FirstWithRun n b) (hend : ¬ b.EndFits) {order : List Word}
    (hperm : order.Perm (runFrames a n)) : pm'.freeEach order = .ok pm' := by
  have hinv' := hfit.inv hinv
  obtain ⟨c, r, hc, hrun, rfl, d, hd, hlayout⟩ := hfit.firstWithRun
  cases hb.unique hc
  obtain ⟨_, _, hsplit, _⟩ := hb
  have hwrap := hinv.nonWrapping b (mem_split hsplit)
  have hlast := hrun.2.1
  have haddress : d.layout.address = b.layout.address := congrArg PmBlock.address hlayout
  have htotal : d.layout.framesTotal = b.layout.framesTotal := congrArg PmBlock.framesTotal hlayout
  change d.address = b.address at haddress
  change d.framesTotal = b.framesTotal at htotal
  unfold PmBlock.EndFits at hend
  refine freeEach_eq_self fun x hx => frameFree_top_block hinv' hd ?_ ?_
  · unfold PmBlock.NonWrapping at hwrap
    rw [haddress, htotal]
    omega
  · obtain ⟨i, hi, rfl⟩ := mem_runFrames.mp (hperm.mem_iff.mp hx)
    have hframe := PmBlock.frame_toNat hwrap (f := r + i) (by omega)
    rw [runFrame, ← PmBlock.frame_add, haddress, hframe]
    omega

theorem FirstFit.ne {n : Nat} (hpos : 0 < n) {a : Word} (hfit : pm.FirstFit n a pm') : pm' ≠ pm := by
  intro heq
  have hfree := hfit.free_run hpos
  have hused := (hfit.used_iff hinv (runFrame a 0)).mpr (.inr ⟨0, hpos, rfl⟩)
  rw [heq] at hused
  exact hinv.not_used_of_free hfree hused

/-- When freeing a claimed run gives the pmm from before. -/
theorem FirstFit.freeEach_iff {n : Nat} (hpos : 0 < n) {a : Word} (hfit : pm.FirstFit n a pm')
    {order : List Word} (hperm : order.Perm (runFrames a n)) :
    pm'.freeEach order = .ok pm ↔ ∀ b, pm.FirstWithRun n b → b.EndFits := by
  constructor
  · intro hback b hb
    by_contra hend
    have htop := hfit.freeEach_top hinv hb hend hperm
    rw [hback] at htop
    exact hfit.ne hinv hpos (Except.ok.inj htop).symm
  · exact fun hends => hfit.freeEach_eq hinv hends hperm

end Undo

end Pmm

/-- One page of conventional memory, the last below 2^64. -/
def topPage : EfiMemoryDescriptor :=
  { type := .conventionalMemory, physicalStart := 0xFFFFFFFFFFFFF000#64, numberOfPages := 1#64,
    attr := 0#64 }

def topPageMap : MemoryMap where
  descs := [topPage]
  wellFormed desc hdesc := by
    rw [List.mem_singleton.mp hdesc]
    exact ⟨by decide, by decide⟩
  apart := List.pairwise_singleton _ _

def topPagePmm : Pmm := buildPmm ⟨1#64, 1#64, fun _ => 0#64⟩ topPageMap.descs

/-- The last page below 2^64 stays used when it is given back. -/
theorem frees_undo_allocation_fails_top :
    topPagePmm.Inv ∧ topPagePmm.Aligned ∧
    ∃ pm', framesAllocate topPagePmm 1#64 = .ok (0xFFFFFFFFFFFFF000#64, pm') ∧
      0xFFFFFFFFFFFFF000#64 ≠ noFrame ∧
      List.Perm [0xFFFFFFFFFFFFF000#64] (runFrames 0xFFFFFFFFFFFFF000#64 (1#64 : Word).toNat) ∧
      pm'.freeEach [0xFFFFFFFFFFFFF000#64] = .ok pm' ∧ pm' ≠ topPagePmm := by
  refine ⟨buildPmm_inv _ topPageMap, buildPmm_aligned _ topPageMap, _, rfl, by decide, by decide, rfl,
    fun heq => ?_⟩
  -- the counter is still down
  have hcount := congrArg (fun pm => pm.blocks.map PmBlock.framesFree) heq
  exact absurd hcount (by decide)

/-- **When freeing undoes allocating.**  Freeing the frames of a run that
    `frames_allocate` returned, in any order, leaves the pmm as it was before the
    allocation, every bit and every counter, if and only if the block that the run is
    from does not end at 2^64, where `frame_free` computes the end 0.  So does freeing
    the frame that `frame_allocate` returned. -/
theorem frees_undo_allocation_iff {pm : Pmm} (hinv : pm.Inv) :
    (∀ count a pm', framesAllocate pm count = .ok (a, pm') → a ≠ noFrame →
      ∀ order : List Word, order.Perm (runFrames a count.toNat) →
        (pm'.freeEach order = .ok pm ↔ ∀ b, pm.FirstWithRun count.toNat b → b.EndFits)) ∧
    ∀ a pm', frameAllocate pm = .ok (a, pm') → a ≠ noFrame →
      (frameFree pm' a = .ok pm ↔ ∀ b, pm.FirstWithRun 1 b → b.EndFits) := by
  have hrun : ∀ count a pm', framesAllocate pm count = .ok (a, pm') → a ≠ noFrame →
      ∀ order : List Word, order.Perm (runFrames a count.toNat) →
        (pm'.freeEach order = .ok pm ↔ ∀ b, pm.FirstWithRun count.toNat b → b.EndFits) := by
    intro count a pm' hcall hne order hperm
    by_cases hzero : count = 0#64
    · rw [hzero, framesAllocate_zero] at hcall
      cases hcall
      exact absurd rfl hne
    · rcases framesAllocate_cases hinv.blocksOk hzero with ⟨hfail, _⟩ | ⟨a', pm'', hok, hfit⟩
      · cases hcall.symm.trans hfail
        exact absurd rfl hne
      · cases hcall.symm.trans hok
        have hpos : 0 < count.toNat :=
          Nat.pos_of_ne_zero fun h0 => hzero (BitVec.eq_of_toNat_eq h0)
        exact hfit.freeEach_iff hinv hpos hperm
  refine ⟨hrun, fun a pm' hcall hne => ?_⟩
  -- a frame is a run of one
  rcases frameAllocate_cases hinv.blocksOk with ⟨hfail, _⟩ | ⟨a', pm'', hok, hfit⟩
  · cases hcall.symm.trans hfail
    exact absurd rfl hne
  · cases hcall.symm.trans hok
    have hiff := hfit.freeEach_iff hinv Nat.one_pos (List.Perm.refl _)
    rw [runFrames_one, Pmm.freeEach_singleton] at hiff
    exact hiff

/-- Two of the three pages, given back last one first, and one by itself. -/
theorem frees_undo_allocation_iff_threePages :
    (∃ pm', framesAllocate threePagesPmm 2#64 = .ok (0x1000#64, pm') ∧
      pm'.freeEach [0x2000#64, 0x1000#64] = .ok threePagesPmm) ∧
    ∃ pm', frameAllocate threePagesPmm = .ok (0x1000#64, pm') ∧
      frameFree pm' 0x1000#64 = .ok threePagesPmm := by
  have hblocks : ∀ b ∈ threePagesPmm.blocks, b.EndFits := by decide
  have hends : ∀ n b, threePagesPmm.FirstWithRun n b → b.EndFits := by
    rintro n b ⟨_, _, hsplit, _⟩
    exact hblocks b (Pmm.mem_split hsplit)
  obtain ⟨hrun, hframe⟩ := frees_undo_allocation_iff threePagesPmm_inv
  exact ⟨⟨_, rfl, (hrun 2#64 0x1000#64 _ rfl (by decide) _ (by decide)).mpr (hends _)⟩,
    _, rfl, (hframe 0x1000#64 _ rfl (by decide)).mpr (hends _)⟩

end EchOS
