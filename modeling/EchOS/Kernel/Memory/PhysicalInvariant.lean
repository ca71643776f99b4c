/-
  EchOS.Kernel.Memory.PhysicalInvariant

  The allocator's representation invariant and what the three operations do to a
  `pmm` that satisfies it.

  `frameAllocate_cases`, `framesAllocate_cases` and `frameFree_cases` say all an
  operation can do: leave the pmm alone, claim the first run of free frames
  (`FirstFit`), or release one frame (`Released`).  Everything later about the
  allocator goes through them; `Pmm.Free` and `Pmm.Used` are the two sets of
  frame addresses they move frames between.
-/
import EchOS.Kernel.Memory.PhysicalBlock
import Mathlib.Data.List.Pairwise

namespace EchOS

open PackedBits (Words AgreeOff zeros)

/-! ## The invariant -/

namespace PmBlock

/-- No frame address belongs to both blocks. -/
def Apart (b c : PmBlock) : Prop :=
  b.address.toNat + b.framesTotal.toNat * 4096 ≤ c.address.toNat ∨
  c.address.toNat + c.framesTotal.toNat * 4096 ≤ b.address.toNat ∨
  b.framesTotal = 0#64 ∨ c.framesTotal = 0#64

/-- The bitmaps of the blocks share no word. -/
def MapApart (b c : PmBlock) : Prop :=
  b.map ≠ none → c.map ≠ none →
    b.base + b.words ≤ c.base ∨ c.base + c.words ≤ b.base ∨ b.words = 0 ∨ c.words = 0

/-- `frame_free`'s test for a block that does not wrap, as numbers.  The end of a
    block that reaches 2^64 is 0 there, so such a block covers nothing. -/
def Covers (b : PmBlock) (address : Word) : Prop :=
  b.address.toNat ≤ address.toNat ∧
  address.toNat < b.address.toNat + b.framesTotal.toNat * 4096 ∧
  b.address.toNat + b.framesTotal.toNat * 4096 ≠ 2 ^ 64

/-- The block's frame that holds an address. -/
def frameIndex (b : PmBlock) (address : Word) : Nat :=
  (address.toNat - b.address.toNat) / 4096

/-- The block after `n` of its frames were claimed, counter only. -/
def claimed (b : PmBlock) (n : Nat) : PmBlock :=
  { b with framesFree := b.framesFree - BitVec.ofNat 64 n }

/-- What no operation changes: everything but the counter. -/
def layout (b : PmBlock) : PmBlock := { b with framesFree := 0#64 }

theorem layout_claimed (b : PmBlock) (n : Nat) : (b.claimed n).layout = b.layout := rfl

theorem layout_released (b : PmBlock) (bitmap : Words 64) (f : Nat) :
    (b.released bitmap f).layout = b.layout := by
  unfold released
  split <;> rfl

theorem Apart.symm {b c : PmBlock} (h : b.Apart c) : c.Apart b := by
  unfold Apart at h ⊢
  tauto

instance : Std.Symm Apart := ⟨fun _ _ h => h.symm⟩

theorem MapApart.symm {b c : PmBlock} (h : b.MapApart c) : c.MapApart b := by
  intro hc hb
  have := h hb hc
  tauto

end PmBlock

namespace Pmm

/-- Address, size, bitmap, type and attributes of every block. -/
def layout (pm : Pmm) : List PmBlock := pm.blocks.map PmBlock.layout

/-- The representation invariant. -/
structure Inv (pm : Pmm) : Prop where
  nonWrapping : ∀ b ∈ pm.blocks, b.NonWrapping
  apart : pm.blocks.Pairwise PmBlock.Apart
  mapApart : pm.blocks.Pairwise PmBlock.MapApart
  ok : ∀ b ∈ pm.blocks, b.Ok pm.bitmap

/-- Each block for itself is in order; what the two allocators rely on. -/
structure BlocksOk (pm : Pmm) : Prop where
  nonWrapping : ∀ b ∈ pm.blocks, b.NonWrapping
  ok : ∀ b ∈ pm.blocks, b.Ok pm.bitmap

theorem Inv.blocksOk {pm : Pmm} (h : pm.Inv) : pm.BlocksOk := ⟨h.nonWrapping, h.ok⟩

/-- `a` is a frame of a managed block whose bit is `bit`. -/
def Marked (pm : Pmm) (bit : Bool) (a : Word) : Prop :=
  ∃ b ∈ pm.blocks, b.map ≠ none ∧
    ∃ f, f < b.framesTotal.toNat ∧ a = b.frame f ∧ b.used pm.bitmap f = bit

/-- `a` is a free frame. -/
def Free (pm : Pmm) (a : Word) : Prop := pm.Marked false a

/-- `a` is a managed frame that is marked used. -/
def Used (pm : Pmm) (a : Word) : Prop := pm.Marked true a

/-- The `i`-th frame of the run at `a`. -/
def runFrame (a : Word) (i : Nat) : Word := a + BitVec.ofNat 64 i * frameSize

/-- `pm'` is `pm` after its first run of `n` free frames, at `a`, was claimed. -/
def FirstFit (pm : Pmm) (n : Nat) (a : Word) (pm' : Pmm) : Prop :=
  ∃ pre b post r, pm.blocks = pre ++ b :: post ∧
    (∀ c ∈ pre, ∀ r', ¬ c.RunAt pm.bitmap n r') ∧
    b.RunAt pm.bitmap n r ∧ (∀ r', r' < r → ¬ b.RunAt pm.bitmap n r') ∧
    a = b.frame r ∧
    pm' = ⟨pre ++ b.claimed n :: post, PackedBits.setRange pm.bitmap b.base r n⟩

/-- `pm'` is `pm` after the managed frame that holds `address` was released. -/
def Released (pm : Pmm) (address : Word) (pm' : Pmm) : Prop :=
  ∃ pre b post, pm.blocks = pre ++ b :: post ∧ b.map ≠ none ∧ b.Covers address ∧
    pm' = ⟨pre ++ b.released pm.bitmap (b.frameIndex address) :: post,
      PackedBits.reset pm.bitmap b.base (b.frameIndex address)⟩

end Pmm

/-! ## The loop over the blocks -/

/-- When every body either skips its block or returns, the loop stops at the
    first block whose body returns. -/
theorem overBlocks_cases {α : Type} (dflt : α)
    (body : PmBlock → Words 64 → Except Abort (Option α × PmBlock × Words 64))
    (bitmap : Words 64) (blocks : List PmBlock)
    (hbody : ∀ b ∈ blocks, body b bitmap = .ok (none, b, bitmap) ∨
      ∃ a b' bitmap', body b bitmap = .ok (some a, b', bitmap')) :
    (overBlocks dflt body blocks bitmap = .ok (dflt, blocks, bitmap) ∧
      ∀ b ∈ blocks, body b bitmap = .ok (none, b, bitmap)) ∨
    ∃ pre b post a b' bitmap', blocks = pre ++ b :: post ∧
      (∀ c ∈ pre, body c bitmap = .ok (none, c, bitmap)) ∧
      body b bitmap = .ok (some a, b', bitmap') ∧
      overBlocks dflt body blocks bitmap = .ok (a, pre ++ b' :: post, bitmap') := by
  induction blocks with
  | nil => exact .inl ⟨rfl, fun b hb => absurd hb (List.not_mem_nil)⟩
  | cons c rest ih =>
      rcases hbody c List.mem_cons_self with hskip | ⟨a, c', bitmap', hret⟩
      -- a skipped block stays in front of the one that answers
      · rcases ih fun b hb => hbody b (List.mem_cons_of_mem _ hb) with
          ⟨hloop, hall⟩ | ⟨pre, b, post, a, b', bitmap', hsplit, hpre, hret, hloop⟩
        · refine .inl ⟨?_, List.forall_mem_cons.mpr ⟨hskip, hall⟩⟩
          rw [overBlocks, hskip]
          simp only [bind, Except.bind, hloop]
          rfl
        · refine .inr ⟨c :: pre, b, post, a, b', bitmap', ?_, ?_, hret, ?_⟩
          · rw [hsplit, List.cons_append]
          · exact List.forall_mem_cons.mpr ⟨hskip, hpre⟩
          · rw [overBlocks, hskip]
            simp only [bind, Except.bind, hloop]
            rfl
      · refine .inr ⟨[], c, rest, a, c', bitmap', rfl, ?_, hret, ?_⟩
        · intro b hb
          cases hb
        · rw [overBlocks, hret]
          rfl

/-! ## Changing one block -/

namespace Pmm

section Replace

variable {pm : Pmm} {pre post : List PmBlock} {b : PmBlock}
  (hinv : pm.Inv) (hsplit : pm.blocks = pre ++ b :: post)

include hsplit

theorem mem_split : b ∈ pm.blocks := by
  rw [hsplit]
  simp

theorem mem_of_mem_others {c : PmBlock} (hc : c ∈ pre ++ post) : c ∈ pm.blocks := by
  rw [hsplit]
  simp only [List.mem_append, List.mem_cons] at hc ⊢
  tauto

theorem mem_others {c : PmBlock} (hc : c ∈ pm.blocks) (hne : c ≠ b) : c ∈ pre ++ post := by
  rw [hsplit] at hc
  simp only [List.mem_append, List.mem_cons] at hc ⊢
  tauto

theorem layout_replace {b' : PmBlock} (bitmap' : Words 64) (hl : b'.layout = b.layout) :
    layout ⟨pre ++ b' :: post, bitmap'⟩ = pm.layout := by
  unfold layout
  rw [hsplit]
  simp [hl]

include hinv

theorem apart_of_mem_others {c : PmBlock} (hc : c ∈ pre ++ post) : b.Apart c := by
  have h := hinv.apart
  rw [hsplit, List.pairwise_append, List.pairwise_cons] at h
  obtain ⟨_, ⟨hpost, _⟩, hpre⟩ := h
  rcases List.mem_append.mp hc with hc | hc
  · exact (hpre c hc b List.mem_cons_self).symm
  · exact hpost c hc

theorem mapApart_of_mem_others {c : PmBlock} (hc : c ∈ pre ++ post) : b.MapApart c := by
  have h := hinv.mapApart
  rw [hsplit, List.pairwise_append, List.pairwise_cons] at h
  obtain ⟨_, ⟨hpost, _⟩, hpre⟩ := h
  rcases List.mem_append.mp hc with hc | hc
  · exact (hpre c hc b List.mem_cons_self).symm
  · exact hpost c hc

/-- A write to `b`'s bitmap does not show in the other blocks' bits. -/
theorem used_others {c : PmBlock} {bitmap' : Words 64} (hmap : b.map ≠ none)
    (hagree : AgreeOff pm.bitmap bitmap' b.base b.words) (hc : c ∈ pre ++ post)
    (hcmap : c.map ≠ none) {f : Nat} (hf : f / 64 < c.words) :
    c.used bitmap' f = c.used pm.bitmap f := by
  apply hagree.get_eq
  have := mapApart_of_mem_others hinv hsplit hc hmap hcmap
  omega

/-- One block may change its counter and its own bitmap words, as long as its
    own invariant holds afterwards. -/
theorem inv_replace {b' : PmBlock} {bitmap' : Words 64} (hmap : b.map ≠ none)
    (hl : b'.layout = b.layout) (hagree : AgreeOff pm.bitmap bitmap' b.base b.words)
    (hok : b'.Ok bitmap') : Inv ⟨pre ++ b' :: post, bitmap'⟩ := by
  have hlay := layout_replace hsplit bitmap' hl
  have hothers : ∀ c ∈ pre ++ post, c.Ok bitmap' := by
    intro c hc
    have hcok := hinv.ok c (mem_of_mem_others hsplit hc)
    have hcw := hinv.nonWrapping c (mem_of_mem_others hsplit hc)
    refine ⟨hcok.unmanaged, fun hcmap => ?_, fun hcmap f hge hlt => ?_⟩
    · rw [hcok.count hcmap]
      refine (PackedBits.zeros_congr fun f hf => ?_).symm
      exact used_others hinv hsplit hmap hagree hc hcmap (PmBlock.div_lt_words hcw hf)
    · rw [used_others hinv hsplit hmap hagree hc hcmap (by omega)]
      exact hcok.padding hcmap f hge hlt
  -- the geometric parts only see the layout
  have hgeom : ∀ (R : PmBlock → PmBlock → Prop),
      (∀ c d, R c d ↔ R c.layout d.layout) → pm.blocks.Pairwise R →
      (pre ++ b' :: post).Pairwise R := by
    intro R hR hp
    have h1 : (pm.blocks.map PmBlock.layout).Pairwise R :=
      List.pairwise_map.mpr (hp.imp fun {c d} h => (hR c d).mp h)
    rw [show pm.blocks.map PmBlock.layout = pm.layout from rfl, ← hlay] at h1
    exact (List.pairwise_map.mp h1).imp fun {c d} h => (hR c d).mpr h
  refine ⟨?_, hgeom _ (fun c d => Iff.rfl) hinv.apart, hgeom _ (fun c d => Iff.rfl) hinv.mapApart, ?_⟩
  · intro c hc
    rcases List.mem_append.mp hc with hc | hc
    · exact hinv.nonWrapping c (mem_of_mem_others hsplit (List.mem_append_left _ hc))
    · rcases List.mem_cons.mp hc with rfl | hc
      · have hbw := hinv.nonWrapping b (mem_split hsplit)
        unfold PmBlock.layout at hl
        obtain ⟨h1, h2⟩ := PmBlock.mk.inj hl
        unfold PmBlock.NonWrapping
        rw [h1, h2.1]
        exact hbw
      · exact hinv.nonWrapping c (mem_of_mem_others hsplit (List.mem_append_right _ hc))
  · intro c hc
    rcases List.mem_append.mp hc with hc | hc
    · exact hothers c (List.mem_append_left _ hc)
    · rcases List.mem_cons.mp hc with rfl | hc
      · exact hok
      · exact hothers c (List.mem_append_right _ hc)

/-- Frames of one block are no frames of another. -/
theorem frame_ne_others {c : PmBlock} (hc : c ∈ pre ++ post) {f g : Nat}
    (hf : f < b.framesTotal.toNat) (hg : g < c.framesTotal.toNat) : c.frame g ≠ b.frame f := by
  intro h
  have hb := hinv.nonWrapping b (mem_split hsplit)
  have hcw := hinv.nonWrapping c (mem_of_mem_others hsplit hc)
  have ht := congrArg BitVec.toNat h
  rw [PmBlock.frame_toNat hb hf, PmBlock.frame_toNat hcw hg] at ht
  rcases apart_of_mem_others hinv hsplit hc with h1 | h1 | h1 | h1
  · omega
  · omega
  · rw [h1] at hf
    exact absurd hf (by simp)
  · rw [h1] at hg
    exact absurd hg (by simp)

/-- How a change of one block shows in the marks: its own frames read the new
    bitmap, all other addresses read as before. -/
theorem marked_replace {b' : PmBlock} {bitmap' : Words 64} (hmap : b.map ≠ none)
    (hl : b'.layout = b.layout) (hagree : AgreeOff pm.bitmap bitmap' b.base b.words)
    (bit : Bool) (a : Word) :
    Marked ⟨pre ++ b' :: post, bitmap'⟩ bit a ↔
      (∃ f, f < b.framesTotal.toNat ∧ a = b.frame f ∧ b.used bitmap' f = bit) ∨
      (pm.Marked bit a ∧ ∀ f, f < b.framesTotal.toNat → a ≠ b.frame f) := by
  unfold PmBlock.layout at hl
  obtain ⟨h1, h2, h3, h4⟩ := PmBlock.mk.inj hl
  have h4 := h4.1
  have hframe : ∀ f, b'.frame f = b.frame f := fun f => by
    unfold PmBlock.frame
    rw [h1]
  have hused : ∀ f, b'.used bitmap' f = b.used bitmap' f := fun f => by
    unfold PmBlock.used PmBlock.base
    rw [h4]
  constructor
  · rintro ⟨c, hc, hcmap, f, hf, rfl, hbit⟩
    have hcases : c = b' ∨ c ∈ pre ++ post := by
      simp only [List.mem_append, List.mem_cons] at hc ⊢
      tauto
    -- another block has none of `b`'s frames and none of its bitmap words
    rcases hcases with rfl | hc
    · refine .inl ⟨f, by rw [← h2]; exact hf, hframe f, by rw [← hused]; exact hbit⟩
    · refine .inr ⟨⟨c, mem_of_mem_others hsplit hc, hcmap, f, hf, rfl, ?_⟩, fun g hg =>
        frame_ne_others hinv hsplit hc hg hf⟩
      have hcw := hinv.nonWrapping c (mem_of_mem_others hsplit hc)
      rw [← used_others hinv hsplit hmap hagree hc hcmap (PmBlock.div_lt_words hcw hf)]
      exact hbit
  · rintro (⟨f, hf, rfl, hbit⟩ | ⟨⟨c, hc, hcmap, f, hf, rfl, hbit⟩, hne⟩)
    · refine ⟨b', by simp, by rw [h4]; exact hmap, f, by rw [h2]; exact hf, (hframe f).symm, ?_⟩
      rw [hused]
      exact hbit
    · have hc' : c ∈ pre ++ post :=
        mem_others hsplit hc fun h => hne f (h ▸ hf) (by rw [h])
      have hcw := hinv.nonWrapping c hc
      refine ⟨c, ?_, hcmap, f, hf, rfl, ?_⟩
      · simp only [List.mem_append, List.mem_cons] at hc' ⊢
        tauto
      · show c.used bitmap' f = bit
        rw [used_others hinv hsplit hmap hagree hc' hcmap (PmBlock.div_lt_words hcw hf)]
        exact hbit

/-- The mark of a frame of `b` is its bit. -/
theorem marked_frame_iff (hmap : b.map ≠ none) {f : Nat} (hf : f < b.framesTotal.toNat)
    {bit : Bool} : pm.Marked bit (b.frame f) ↔ b.used pm.bitmap f = bit := by
  constructor
  · rintro ⟨c, hc, _, g, hg, heq, hbit⟩
    by_cases hcb : c = b
    · subst hcb
      rw [PmBlock.frame_inj (hinv.nonWrapping c hc) hf hg heq]
      exact hbit
    · exact absurd heq.symm (frame_ne_others hinv hsplit (mem_others hsplit hc hcb) hf hg)
  · exact fun hbit => ⟨b, mem_split hsplit, hmap, f, hf, rfl, hbit⟩

/-- The marks after the bits of some frames of `b` became `v`. -/
theorem marked_set {b' : PmBlock} {bitmap' : Words 64} (hmap : b.map ≠ none)
    (hl : b'.layout = b.layout) (hagree : AgreeOff pm.bitmap bitmap' b.base b.words)
    (P : Word → Prop) (v : Bool)
    (hframes : ∀ x, P x → ∃ f, f < b.framesTotal.toNat ∧ x = b.frame f)
    (hset : ∀ f, f < b.framesTotal.toNat → P (b.frame f) → b.used bitmap' f = v)
    (hkeep : ∀ f, f < b.framesTotal.toNat → ¬ P (b.frame f) →
      b.used bitmap' f = b.used pm.bitmap f) (bit : Bool) (x : Word) :
    Marked ⟨pre ++ b' :: post, bitmap'⟩ bit x ↔
      (bit = v ∧ P x) ∨ (pm.Marked bit x ∧ ¬ P x) := by
  rw [marked_replace hinv hsplit hmap hl hagree]
  constructor
  · rintro (⟨f, hf, rfl, hbit⟩ | ⟨hm, hne⟩)
    · by_cases hP : P (b.frame f)
      · rw [hset f hf hP] at hbit
        exact .inl ⟨hbit.symm, hP⟩
      · rw [hkeep f hf hP] at hbit
        exact .inr ⟨(marked_frame_iff hinv hsplit hmap hf).mpr hbit, hP⟩
    · refine .inr ⟨hm, fun hP => ?_⟩
      obtain ⟨f, hf, rfl⟩ := hframes x hP
      exact hne f hf rfl
  · rintro (⟨rfl, hP⟩ | ⟨hm, hP⟩)
    · obtain ⟨f, hf, rfl⟩ := hframes x hP
      exact .inl ⟨f, hf, rfl, hset f hf hP⟩
    · by_cases hblock : ∃ f, f < b.framesTotal.toNat ∧ x = b.frame f
      · -- a frame of `b` whose bit stayed
        obtain ⟨f, hf, rfl⟩ := hblock
        have hbit := (marked_frame_iff hinv hsplit hmap hf).mp hm
        exact .inl ⟨f, hf, rfl, (hkeep f hf hP).trans hbit⟩
      · exact .inr ⟨hm, fun f hf heq => hblock ⟨f, hf, heq⟩⟩

end Replace

end Pmm

/-! ## What each operation can do -/

theorem PmBlock.frame_ne_noFrame {b : PmBlock} (h : b.NonWrapping) {f : Nat}
    (hf : f < b.framesTotal.toNat) : b.frame f ≠ noFrame := by
  intro heq
  have ht := congrArg BitVec.toNat heq
  rw [PmBlock.frame_toNat h hf, show noFrame.toNat = 2 ^ 64 - 1 from rfl] at ht
  unfold PmBlock.NonWrapping at h
  omega

/-- A claimed run was a free run of a block. -/
theorem Pmm.FirstFit.exists_run {pm pm' : Pmm} {n : Nat} {a : Word} (h : pm.FirstFit n a pm') :
    ∃ b ∈ pm.blocks, ∃ f, b.RunAt pm.bitmap n f ∧ a = b.frame f := by
  obtain ⟨pre, b, post, f, hsplit, _, hrun, _, rfl, _⟩ := h
  exact ⟨b, Pmm.mem_split hsplit, f, hrun, rfl⟩

/-- So it starts at no failure value. -/
theorem Pmm.FirstFit.ne_noFrame {pm pm' : Pmm} (hblocks : pm.BlocksOk) {n : Nat} {a : Word}
    (h : pm.FirstFit n a pm') (hn : 0 < n) : a ≠ noFrame := by
  obtain ⟨b, hb, f, hrun, rfl⟩ := h.exists_run
  have hend := hrun.2.1
  exact PmBlock.frame_ne_noFrame (hblocks.nonWrapping b hb) (by omega)

theorem foundFrame_eq {a : Word} (h : a ≠ noFrame) : foundFrame a = some a :=
  if_pos h

section Allocators

variable {pm : Pmm} (hblocks : pm.BlocksOk)

include hblocks

/-- A block with a nonzero counter is managed. -/
theorem Pmm.BlocksOk.map_ne_none {b : PmBlock} (hb : b ∈ pm.blocks) (h : b.framesFree ≠ 0#64) :
    b.map ≠ none :=
  fun hmap => h ((hblocks.ok b hb).unmanaged hmap)

/-- A body that skips a block has found no run in it. -/
theorem frameAllocate_body_cases {b : PmBlock} (hb : b ∈ pm.blocks) :
    (frameAllocate.body b pm.bitmap = .ok (none, b, pm.bitmap) ∧
      ∀ r, ¬ b.RunAt pm.bitmap 1 r) ∨
    ∃ r, b.RunAt pm.bitmap 1 r ∧ (∀ r', r' < r → ¬ b.RunAt pm.bitmap 1 r') ∧
      frameAllocate.body b pm.bitmap
        = .ok (some (b.frame r), b.claimed 1, PackedBits.setRange pm.bitmap b.base r 1) := by
  have hok := hblocks.ok b hb
  have hw := hblocks.nonWrapping b hb
  unfold frameAllocate.body
  by_cases h0 : b.framesFree = 0#64
  · refine .inl ⟨if_pos h0, fun r hrun => ?_⟩
    have := hrun.le_framesFree hok
    rw [h0] at this
    exact absurd this (by simp)
  · have hmap := hblocks.map_ne_none hb h0
    rw [if_neg h0]
    rcases frameAllocateFromBlock_spec hmap hw hok with
      ⟨hres, hall⟩ | ⟨f, hf, hclear, hbefore, hres⟩
    · refine .inl ⟨?_, PmBlock.not_runAt_of_used (by decide) hall⟩
      rw [hres]
      rfl
    · refine .inr ⟨f, ⟨hmap, hf, fun i hi => ?_⟩, fun r' hr' hrun => ?_, ?_⟩
      · rw [show f + i = f by omega]
        exact hclear
      · have := hrun.2.2 0 (by decide)
        rw [hbefore (r' + 0) hr'] at this
        cases this
      · rw [hres]
        simp only [bind, Except.bind, pure, Except.pure,
          foundFrame_eq (PmBlock.frame_ne_noFrame hw hf)]
        rfl

theorem framesAllocate_body_cases {count : Word} (hcount : count ≠ 0#64) {b : PmBlock}
    (hb : b ∈ pm.blocks) :
    (framesAllocate.body count b pm.bitmap = .ok (none, b, pm.bitmap) ∧
      ∀ r, ¬ b.RunAt pm.bitmap count.toNat r) ∨
    ∃ r, b.RunAt pm.bitmap count.toNat r ∧ (∀ r', r' < r → ¬ b.RunAt pm.bitmap count.toNat r') ∧
      framesAllocate.body count b pm.bitmap
        = .ok (some (b.frame r), b.claimed count.toNat,
            PackedBits.setRange pm.bitmap b.base r count.toNat) := by
  have hok := hblocks.ok b hb
  have hw := hblocks.nonWrapping b hb
  unfold framesAllocate.body
  by_cases h0 : b.map = none ∨ b.framesFree < count
  · refine .inl ⟨if_pos h0, fun r hrun => ?_⟩
    rcases h0 with h0 | h0
    · exact hrun.1 h0
    · have hle := hrun.le_framesFree hok
      have hlt : b.framesFree.toNat < count.toNat := h0
      omega
  · have hmap : b.map ≠ none := fun h => h0 (.inl h)
    rw [if_neg h0]
    rcases framesAllocateFromBlock_spec pm.bitmap hmap hw hcount with
      ⟨hres, hnone⟩ | ⟨r, hrun, hfirst, hres⟩
    · refine .inl ⟨?_, hnone⟩
      rw [hres]
      rfl
    · refine .inr ⟨r, hrun, hfirst, ?_⟩
      have hpos : 0 < count.toNat := by
        rcases Nat.eq_zero_or_pos count.toNat with hc | hc
        · exact absurd (BitVec.eq_of_toNat_eq (by simpa using hc)) hcount
        · exact hc
      have hf : r < b.framesTotal.toNat := by
        have := hrun.2.1
        omega
      rw [hres]
      simp only [bind, Except.bind, pure, Except.pure,
        foundFrame_eq (PmBlock.frame_ne_noFrame hw hf), PmBlock.claimed, BitVec.ofNat_toNat,
        BitVec.setWidth_eq]

omit hblocks in
/-- An operation that returns what the loop over the blocks does, from what the body of the
    loop does to one block. -/
theorem allocate_cases {n : Nat}
    {body : PmBlock → Words 64 → Except Abort (Option Word × PmBlock × Words 64)}
    (hbody : ∀ b ∈ pm.blocks,
      (body b pm.bitmap = .ok (none, b, pm.bitmap) ∧ ∀ r, ¬ b.RunAt pm.bitmap n r) ∨
      ∃ r, b.RunAt pm.bitmap n r ∧ (∀ r', r' < r → ¬ b.RunAt pm.bitmap n r') ∧
        body b pm.bitmap
          = .ok (some (b.frame r), b.claimed n, PackedBits.setRange pm.bitmap b.base r n))
    {run : Except Abort (Word × Pmm)}
    (hrun : run = overBlocks noFrame body pm.blocks pm.bitmap >>= fun result =>
      .ok (result.1, ⟨result.2.1, result.2.2⟩)) :
    (run = .ok (noFrame, pm) ∧ ∀ b ∈ pm.blocks, ∀ r, ¬ b.RunAt pm.bitmap n r) ∨
    ∃ a pm', run = .ok (a, pm') ∧ pm.FirstFit n a pm' := by
  -- a body that skips its block is in the first case, one that returns in the second
  have hskip : ∀ b ∈ pm.blocks, body b pm.bitmap = .ok (none, b, pm.bitmap) →
      ∀ r, ¬ b.RunAt pm.bitmap n r := by
    intro b hb hnone
    rcases hbody b hb with ⟨_, h⟩ | ⟨r, _, _, hres⟩
    · exact h
    · rw [hnone] at hres
      cases hres
  have hcases := overBlocks_cases noFrame body pm.bitmap pm.blocks fun b hb => by
    rcases hbody b hb with ⟨h, _⟩ | ⟨r, _, _, hres⟩
    · exact .inl h
    · exact .inr ⟨_, _, _, hres⟩
  rcases hcases with ⟨hloop, hall⟩ | ⟨pre, b, post, a, b', bitmap', hsplit, hpre, hret, hloop⟩
  · rw [hloop] at hrun
    exact .inl ⟨hrun, fun b hb => hskip b hb (hall b hb)⟩
  · rcases hbody b (Pmm.mem_split hsplit) with ⟨h, _⟩ | ⟨r, hrun', hfirst, hres⟩
    · rw [hret] at h
      cases h
    · rw [hret] at hres
      cases hres
      rw [hloop] at hrun
      refine .inr ⟨_, _, hrun, pre, b, post, r, hsplit, ?_, hrun', hfirst, rfl, rfl⟩
      intro c hc
      exact hskip c (Pmm.mem_of_mem_others hsplit (List.mem_append_left _ hc)) (hpre c hc)

/-- `frame_allocate` claims the first free frame, or there is none. -/
theorem frameAllocate_cases :
    (frameAllocate pm = .ok (noFrame, pm) ∧
      ∀ b ∈ pm.blocks, ∀ r, ¬ b.RunAt pm.bitmap 1 r) ∨
    ∃ a pm', frameAllocate pm = .ok (a, pm') ∧ pm.FirstFit 1 a pm' :=
  allocate_cases (fun _ hb => frameAllocate_body_cases hblocks hb) rfl

/-- `frames_allocate` claims the first run of `count` free frames, or there is none. -/
theorem framesAllocate_cases {count : Word} (hcount : count ≠ 0#64) :
    (framesAllocate pm count = .ok (noFrame, pm) ∧
      ∀ b ∈ pm.blocks, ∀ r, ¬ b.RunAt pm.bitmap count.toNat r) ∨
    ∃ a pm', framesAllocate pm count = .ok (a, pm') ∧ pm.FirstFit count.toNat a pm' :=
  allocate_cases (fun _ hb => framesAllocate_body_cases hblocks hcount hb) (if_neg hcount)

omit hblocks in
theorem framesAllocate_zero : framesAllocate pm 0#64 = .ok (noFrame, pm) :=
  if_pos rfl

end Allocators

section Cases

variable {pm : Pmm} (hinv : pm.Inv)

include hinv

theorem covers_iff {b : PmBlock} (hb : b ∈ pm.blocks) {address : Word} :
    (b.address ≤ address ∧ address < b.address + b.framesTotal * frameSize) ↔
      b.Covers address := by
  have hw := hinv.nonWrapping b hb
  unfold PmBlock.NonWrapping at hw
  unfold PmBlock.Covers
  rw [BitVec.le_def, BitVec.lt_def, BitVec.toNat_add, BitVec.toNat_mul, frameSize_toNat]
  have := b.address.isLt
  have := address.isLt
  omega

omit hinv in
theorem PmBlock.Covers.frameIndex_lt {b : PmBlock} {address : Word} (h : b.Covers address) :
    b.frameIndex address < b.framesTotal.toNat := by
  unfold PmBlock.Covers at h
  unfold PmBlock.frameIndex
  omega

omit hinv in
/-- The frame a covered address lies in. -/
theorem PmBlock.Covers.frame_frameIndex {b : PmBlock} {address : Word} (h : b.Covers address)
    (hw : b.NonWrapping) (hal : 4096 ∣ b.address.toNat) :
    b.frame (b.frameIndex address) = pageBase address := by
  apply BitVec.eq_of_toNat_eq
  rw [PmBlock.frame_toNat hw h.frameIndex_lt, pageBase_toNat]
  unfold PmBlock.frameIndex
  have := h.1
  omega

/-- At most one block covers an address. -/
theorem covers_unique {b c : PmBlock} (hb : b ∈ pm.blocks) (hc : c ∈ pm.blocks) {address : Word}
    (hbc : b.Covers address) (hcc : c.Covers address) : b = c := by
  by_contra hne
  have hapart := hinv.apart.forall hb hc hne
  have hb0 : b.framesTotal ≠ 0#64 := fun h => by
    have := hbc.frameIndex_lt
    rw [h] at this
    exact absurd this (by simp)
  have hc0 : c.framesTotal ≠ 0#64 := fun h => by
    have := hcc.frameIndex_lt
    rw [h] at this
    exact absurd this (by simp)
  unfold PmBlock.Covers at hbc hcc
  rcases hapart with h | h | h | h
  · omega
  · omega
  · exact hb0 h
  · exact hc0 h

theorem frameFree_body_skip {b : PmBlock} (hb : b ∈ pm.blocks) {address : Word}
    (h : ¬ b.Covers address) :
    frameFree.body address b pm.bitmap = .ok (none, b, pm.bitmap) :=
  if_neg (fun h' => h ((covers_iff hinv hb).mp h'))

theorem frameFree_body_unmanaged {b : PmBlock} (hb : b ∈ pm.blocks) {address : Word}
    (h : b.Covers address) (hmap : b.map = none) :
    frameFree.body address b pm.bitmap = .ok (some (), b, pm.bitmap) := by
  unfold frameFree.body
  simp only []
  rw [if_pos ((covers_iff hinv hb).mpr h)]
  unfold frameFreeFromBlock
  rw [if_pos hmap]
  rfl

theorem frameFree_body_managed {b : PmBlock} (hb : b ∈ pm.blocks) {address : Word}
    (h : b.Covers address) (hmap : b.map ≠ none) :
    frameFree.body address b pm.bitmap
      = .ok (some (), b.released pm.bitmap (b.frameIndex address),
          PackedBits.reset pm.bitmap b.base (b.frameIndex address)) := by
  have hsub : (address - b.address).toNat / 4096 = b.frameIndex address := by
    unfold PmBlock.frameIndex
    have hle := h.1
    rw [BitVec.toNat_sub]
    have := address.isLt
    omega
  unfold frameFree.body
  simp only []
  rw [if_pos ((covers_iff hinv hb).mpr h),
    frameFreeFromBlock_spec hmap (hinv.nonWrapping b hb) h.frameIndex_lt hsub]
  rfl

/-- `frame_free` releases the managed frame that holds the address, or leaves the
    pmm alone when no managed block covers it. -/
theorem frameFree_cases (address : Word) :
    (frameFree pm address = .ok pm ∧
      ∀ b ∈ pm.blocks, b.map ≠ none → ¬ b.Covers address) ∨
    ∃ pm', frameFree pm address = .ok pm' ∧ pm.Released address pm' := by
  have hbody : ∀ b ∈ pm.blocks, frameFree.body address b pm.bitmap = .ok (none, b, pm.bitmap) ∨
      ∃ a b' bitmap', frameFree.body address b pm.bitmap = .ok (some a, b', bitmap') := by
    intro b hb
    by_cases hc : b.Covers address
    · by_cases hmap : b.map = none
      · exact .inr ⟨_, _, _, frameFree_body_unmanaged hinv hb hc hmap⟩
      · exact .inr ⟨_, _, _, frameFree_body_managed hinv hb hc hmap⟩
    · exact .inl (frameFree_body_skip hinv hb hc)
  unfold frameFree
  rcases overBlocks_cases () (frameFree.body address) pm.bitmap pm.blocks hbody with
    ⟨hloop, hall⟩ | ⟨pre, b, post, a, b', bitmap', hsplit, hpre, hret, hloop⟩
  · refine .inl ⟨by rw [hloop]; rfl, fun b hb hmap hc => ?_⟩
    have := hall b hb
    rw [frameFree_body_managed hinv hb hc hmap] at this
    cases this
  · have hb : b ∈ pm.blocks := Pmm.mem_split hsplit
    have hc : b.Covers address := by
      by_contra hno
      rw [frameFree_body_skip hinv hb hno] at hret
      cases hret
    -- without a bitmap the block ends the loop, and no later block covers the address
    by_cases hmap : b.map = none
    · rw [frameFree_body_unmanaged hinv hb hc hmap] at hret
      cases hret
      refine .inl ⟨?_, fun c hcm hcmap hcc => ?_⟩
      · rw [hloop]
        simp only [bind, Except.bind, pure, Except.pure, ← hsplit]
      · exact hcmap (covers_unique hinv hcm hb hcc hc ▸ hmap)
    · rw [frameFree_body_managed hinv hb hc hmap] at hret
      cases hret
      refine .inr ⟨_, ?_, pre, b, post, hsplit, hmap, hc, rfl⟩
      rw [hloop]
      rfl

end Cases

/-! ## The invariant is kept -/

namespace Pmm

section Keep

variable {pm pm' : Pmm} (hinv : pm.Inv)

include hinv

theorem FirstFit.agree {b : PmBlock} (hb : b ∈ pm.blocks) {n r : Nat}
    (hrun : b.RunAt pm.bitmap n r) :
    AgreeOff pm.bitmap (PackedBits.setRange pm.bitmap b.base r n) b.base b.words :=
  PackedBits.agreeOff_setRange fun _ hf =>
    PmBlock.div_lt_words (hinv.nonWrapping b hb) (Nat.lt_of_lt_of_le hf hrun.2.1)

theorem FirstFit.block_ok {b : PmBlock} (hb : b ∈ pm.blocks) {n r : Nat}
    (hrun : b.RunAt pm.bitmap n r) :
    (b.claimed n).Ok (PackedBits.setRange pm.bitmap b.base r n) := by
  have hok := hinv.ok b hb
  have hle := hrun.le_framesFree hok
  obtain ⟨hmap, hend, hfree⟩ := hrun
  refine ⟨fun h => absurd h hmap, fun _ => ?_, fun _ f hge hlt => ?_⟩
  · have hz := PackedBits.zeros_setRange (by decide) pm.bitmap b.base hend
      fun i h1 h2 => by
        have hi := hfree (i - r) (by omega)
        rwa [show r + (i - r) = i by omega] at hi
    show (b.framesFree - BitVec.ofNat 64 n).toNat = zeros _ b.base b.framesTotal.toNat
    have hcount := hok.count hmap
    have := b.framesFree.isLt
    rw [BitVec.toNat_sub, toNat_ofNat_of_lt (by omega)]
    omega
  · show PackedBits.get _ b.base f = true
    rw [PackedBits.get_setRange (by decide)]
    have hpad : PackedBits.get pm.bitmap b.base f = true := hok.padding hmap f hge hlt
    rw [hpad, Bool.or_true]

theorem FirstFit.inv {n : Nat} {a : Word} (h : pm.FirstFit n a pm') : pm'.Inv := by
  obtain ⟨pre, b, post, r, hsplit, _, hrun, _, rfl, rfl⟩ := h
  have hb := mem_split hsplit
  exact inv_replace hinv hsplit hrun.1 (PmBlock.layout_claimed b n) (FirstFit.agree hinv hb hrun)
    (FirstFit.block_ok hinv hb hrun)

omit hinv in
theorem FirstFit.layout_eq {n : Nat} {a : Word} (h : pm.FirstFit n a pm') :
    pm'.layout = pm.layout := by
  obtain ⟨pre, b, post, r, hsplit, _, _, _, rfl, rfl⟩ := h
  exact layout_replace hsplit _ (PmBlock.layout_claimed b n)

theorem Released.agree {b : PmBlock} (hb : b ∈ pm.blocks) {address : Word}
    (hc : b.Covers address) :
    AgreeOff pm.bitmap (PackedBits.reset pm.bitmap b.base (b.frameIndex address)) b.base b.words :=
  PackedBits.agreeOff_reset (PmBlock.div_lt_words (hinv.nonWrapping b hb) hc.frameIndex_lt)

theorem Released.block_ok {b : PmBlock} (hb : b ∈ pm.blocks) (hmap : b.map ≠ none) {f : Nat}
    (hf : f < b.framesTotal.toNat) :
    (b.released pm.bitmap f).Ok (PackedBits.reset pm.bitmap b.base f) := by
  have hok := hinv.ok b hb
  have hw := hinv.nonWrapping b hb
  have hcount := hok.count hmap
  have hpad : ∀ g, b.framesTotal.toNat ≤ g → g < 64 * b.words →
      PackedBits.get (PackedBits.reset pm.bitmap b.base f) b.base g = true := by
    intro g hge hlt
    have hg : PackedBits.get pm.bitmap b.base g = true := hok.padding hmap g hge hlt
    have hne : ¬ g = f := by omega
    rw [PackedBits.get_reset (by decide), hg, decide_eq_false hne]
    rfl
  unfold PmBlock.released
  -- the counter goes up only when the bit was set, as the number of zeros does
  by_cases hu : b.used pm.bitmap f = true
  · rw [if_pos hu]
    refine ⟨fun h => absurd h hmap, fun _ => ?_, fun _ => hpad⟩
    have hz := PackedBits.zeros_reset (by decide) hf hu
    have hle := PackedBits.zeros_le (PackedBits.reset pm.bitmap b.base f) b.base b.framesTotal.toNat
    have := PmBlock.framesTotal_le hw
    show (b.framesFree + 1#64).toNat = zeros _ b.base b.framesTotal.toNat
    rw [toNat_add_of_lt (by rw [hcount]; simp; omega), hz, hcount]
    rfl
  · rw [if_neg hu]
    refine ⟨fun h => absurd h hmap, fun _ => ?_, fun _ => hpad⟩
    rw [hcount]
    refine (PackedBits.zeros_congr fun g hg => ?_).symm
    have hfu : PackedBits.get pm.bitmap b.base f = false  :=
      (Bool.not_eq_true _).mp hu
    rw [PackedBits.get_reset (by decide)]
    by_cases hgf : g = f
    · subst hgf
      simp [hfu]
    · simp [hgf]

theorem Released.inv {address : Word} (h : pm.Released address pm') : pm'.Inv := by
  obtain ⟨pre, b, post, hsplit, hmap, hc, rfl⟩ := h
  have hb := mem_split hsplit
  exact inv_replace hinv hsplit hmap (PmBlock.layout_released _ _ _)
    (Released.agree hinv hb hc) (Released.block_ok hinv hb hmap hc.frameIndex_lt)

omit hinv in
theorem Released.layout_eq {address : Word} (h : pm.Released address pm') :
    pm'.layout = pm.layout := by
  obtain ⟨pre, b, post, hsplit, _, _, rfl⟩ := h
  exact layout_replace hsplit _ (PmBlock.layout_released _ _ _)

/-- The counter of every block stays within its frames. -/
theorem Inv.framesFree_le {b : PmBlock} (hb : b ∈ pm.blocks) :
    b.framesFree.toNat ≤ b.framesTotal.toNat := by
  by_cases hmap : b.map = none
  · rw [(hinv.ok b hb).unmanaged hmap]
    exact Nat.zero_le _
  · rw [(hinv.ok b hb).count hmap]
    exact PackedBits.zeros_le _ _ _

end Keep

/-! ## Free and used frames -/

section Frames

variable {pm pm' : Pmm} (hinv : pm.Inv)

include hinv

/-- The marks of the block a run was claimed in. -/
theorem FirstFit.marked_iff {n : Nat} {a : Word} (h : pm.FirstFit n a pm') (bit : Bool)
    (x : Word) :
    pm'.Marked bit x ↔
      (bit = true ∧ ∃ i, i < n ∧ x = runFrame a i) ∨
      (pm.Marked bit x ∧ ∀ i, i < n → x ≠ runFrame a i) := by
  obtain ⟨pre, b, post, r, hsplit, _, hrun, _, rfl, rfl⟩ := h
  have hb := mem_split hsplit
  have hw := hinv.nonWrapping b hb
  have hend := hrun.2.1
  have hset : ∀ f, b.used (PackedBits.setRange pm.bitmap b.base r n) f
      = (decide (r ≤ f ∧ f < r + n) || b.used pm.bitmap f) := fun f =>
    PackedBits.get_setRange (by decide) _ _ _ _ _
  -- an address of the block is in the run iff its index is
  have hrunFrame : ∀ f, f < b.framesTotal.toNat →
      ((∃ i, i < n ∧ b.frame f = runFrame (b.frame r) i) ↔ r ≤ f ∧ f < r + n) := by
    intro f hf
    constructor
    · rintro ⟨i, hi, heq⟩
      rw [runFrame, ← PmBlock.frame_add] at heq
      have := PmBlock.frame_inj hw hf (by omega) heq
      omega
    · rintro ⟨h1, h2⟩
      refine ⟨f - r, by omega, ?_⟩
      rw [runFrame, ← PmBlock.frame_add, show r + (f - r) = f by omega]
  refine (marked_set hinv hsplit hrun.1 (PmBlock.layout_claimed b n) (FirstFit.agree hinv hb hrun)
    (fun x => ∃ i, i < n ∧ x = runFrame (b.frame r) i) true ?_ ?_ ?_ bit x).trans ?_
  · rintro x ⟨i, hi, rfl⟩
    exact ⟨r + i, by omega, by rw [PmBlock.frame_add]; rfl⟩
  · intro f hf hin
    rw [hset, decide_eq_true ((hrunFrame f hf).mp hin), Bool.true_or]
  · intro f hf hout
    rw [hset, decide_eq_false (mt (hrunFrame f hf).mpr hout), Bool.false_or]
  · refine or_congr_right (and_congr_right fun _ => ?_)
    rw [not_exists]
    exact forall_congr' fun i => not_and

/-- Claiming a run takes it out of the free frames. -/
theorem FirstFit.free_iff {n : Nat} {a : Word} (h : pm.FirstFit n a pm') (x : Word) :
    pm'.Free x ↔ pm.Free x ∧ ∀ i, i < n → x ≠ runFrame a i := by
  unfold Free
  rw [h.marked_iff hinv]
  simp

/-- Claiming a run adds it to the used frames. -/
theorem FirstFit.used_iff {n : Nat} {a : Word} (h : pm.FirstFit n a pm') (x : Word) :
    pm'.Used x ↔ pm.Used x ∨ ∃ i, i < n ∧ x = runFrame a i := by
  unfold Used
  rw [h.marked_iff hinv]
  by_cases hx : ∃ i, i < n ∧ x = runFrame a i
  · simp [hx]
  · simp only [hx, and_false, false_or, or_false, and_iff_left_iff_imp]
    intro _ i hi heq
    exact hx ⟨i, hi, heq⟩

omit hinv in
/-- The frames a run claims were free. -/
theorem FirstFit.free_run {n : Nat} {a : Word} (h : pm.FirstFit n a pm') {i : Nat} (hi : i < n) :
    pm.Free (runFrame a i) := by
  obtain ⟨pre, b, post, r, hsplit, _, hrun, _, rfl, rfl⟩ := h
  have := hrun.2.1
  refine ⟨b, mem_split hsplit, hrun.1, r + i, by omega, ?_, hrun.2.2 i hi⟩
  rw [PmBlock.frame_add]
  rfl

/-- The frames of a claimed run are distinct. -/
theorem FirstFit.runFrame_inj {n : Nat} {a : Word} (h : pm.FirstFit n a pm') {i j : Nat}
    (hi : i < n) (hj : j < n) (heq : runFrame a i = runFrame a j) : i = j := by
  obtain ⟨pre, b, post, r, hsplit, _, hrun, _, rfl, rfl⟩ := h
  have := hrun.2.1
  rw [runFrame, runFrame, ← PmBlock.frame_add, ← PmBlock.frame_add] at heq
  have := PmBlock.frame_inj (hinv.nonWrapping b (mem_split hsplit)) (by omega) (by omega) heq
  omega

omit hinv in
/-- The first block of a list with a property. -/
theorem split_unique {blocks pre pre' post post' : List PmBlock} {b b' : PmBlock}
    {P : PmBlock → Prop} (h : blocks = pre ++ b :: post) (hpre : ∀ c ∈ pre, ¬ P c) (hb : P b)
    (h' : blocks = pre' ++ b' :: post') (hpre' : ∀ c ∈ pre', ¬ P c) (hb' : P b') :
    pre = pre' ∧ b = b' ∧ post = post' := by
  rw [h] at h'
  rcases List.append_eq_append_iff.mp h' with ⟨mid, hmid, hrest⟩ | ⟨mid, hmid, hrest⟩
  · cases mid with
    | nil =>
        cases hrest
        exact ⟨by rw [hmid, List.append_nil], rfl, rfl⟩
    | cons c mid =>
        cases hrest
        exact absurd hb (hpre' b (hmid ▸ List.mem_append_right _ List.mem_cons_self))
  · cases mid with
    | nil =>
        cases hrest
        exact ⟨by rw [hmid, List.append_nil], rfl, rfl⟩
    | cons c mid =>
        cases hrest
        exact absurd hb' (hpre b' (hmid ▸ List.mem_append_right _ List.mem_cons_self))

omit hinv in
/-- There is one first run. -/
theorem FirstFit.unique {pm'' : Pmm} {n : Nat} {a a' : Word} (h : pm.FirstFit n a pm')
    (h' : pm.FirstFit n a' pm'') : a = a' ∧ pm' = pm'' := by
  obtain ⟨pre, b, post, r, hsplit, hpre, hrun, hfirst, rfl, rfl⟩ := h
  obtain ⟨pre', b', post', r', hsplit', hpre', hrun', hfirst', rfl, rfl⟩ := h'
  obtain ⟨rfl, rfl, rfl⟩ := split_unique (P := fun c => ∃ r, c.RunAt pm.bitmap n r) hsplit
    (fun c hc ⟨r, hr⟩ => hpre c hc r hr) ⟨r, hrun⟩ hsplit'
    (fun c hc ⟨r, hr⟩ => hpre' c hc r hr) ⟨r', hrun'⟩
  have hr : r = r' := by
    rcases Nat.lt_trichotomy r r' with hlt | heq | hgt
    · exact absurd hrun (hfirst' r hlt)
    · exact heq
    · exact absurd hrun' (hfirst r' hgt)
  rw [hr]
  exact ⟨rfl, rfl⟩

/-- A frame is not both free and used. -/
theorem Inv.not_used_of_free {a : Word} (h : pm.Free a) : ¬ pm.Used a := by
  obtain ⟨b, hb, hmap, f, hf, rfl, hbit⟩ := h
  obtain ⟨pre, post, hsplit⟩ := List.append_of_mem hb
  intro hused
  rw [(marked_frame_iff hinv hsplit hmap hf).mp hused] at hbit
  cases hbit

/-- The marks after a release. -/
theorem Released.marked_iff {address : Word} (h : pm.Released address pm') :
    ∃ b ∈ pm.blocks, b.map ≠ none ∧ b.Covers address ∧ ∀ bit x,
      pm'.Marked bit x ↔
        (bit = false ∧ x = b.frame (b.frameIndex address)) ∨
        (pm.Marked bit x ∧ x ≠ b.frame (b.frameIndex address)) := by
  obtain ⟨pre, b, post, hsplit, hmap, hc, rfl⟩ := h
  have hb := mem_split hsplit
  have hw := hinv.nonWrapping b hb
  have hlt := hc.frameIndex_lt
  refine ⟨b, hb, hmap, hc, fun bit x => ?_⟩
  have hreset : ∀ f, b.used (PackedBits.reset pm.bitmap b.base (b.frameIndex address)) f
      = (!decide (f = b.frameIndex address) && b.used pm.bitmap f) := fun f =>
    PackedBits.get_reset (by decide) _ _ _ _
  refine marked_set hinv hsplit hmap (PmBlock.layout_released _ _ _) (Released.agree hinv hb hc)
    (fun x => x = b.frame (b.frameIndex address)) false ?_ ?_ ?_ bit x
  · exact fun x hx => ⟨_, hlt, hx⟩
  · intro f hf heq
    rw [hreset, decide_eq_true (PmBlock.frame_inj hw hf hlt heq), Bool.not_true, Bool.false_and]
  · intro f _ hne
    have hfi : ¬ f = b.frameIndex address := fun h => hne (by rw [h])
    rw [hreset, decide_eq_false hfi, Bool.not_false, Bool.true_and]

end Frames

end Pmm

end EchOS
