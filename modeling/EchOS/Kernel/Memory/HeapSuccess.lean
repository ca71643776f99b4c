/-
  EchOS.Kernel.Memory.HeapSuccess

  A `get_heap` call that succeeds.

  `get_heap` counts the pages of `length` alone, but `map_range` starts at the
  page of `vaddr` and runs to `vaddr + length`.  For a `vaddr` inside a page that
  is one page more than there are frames, and that page goes to the frame after
  the reservation (`HeapRun.pages_eq`).
-/
import EchOS.Kernel.Memory.HeapFailure

namespace EchOS

/-! ## Ends in the last page -/

/-- A loop with its end in the last page of the address space never returns 0. -/
theorem loop_ne_zero {flags root stop : Word} (hflags : PlainFlags flags)
    (hstop : 2 ^ 64 - 4096 < stop.toNat) {fuel : Nat} {s s' : Machine} {v p : Word}
    (hinv : s.TreeInv root) (hv : 4096 ∣ v.toNat) :
    mapRange.loop root stop flags fuel s v p ≠ .ok (0, s') := by
  intro h
  induction fuel generalizing s v p with
  | zero => cases h
  | succ fuel ih =>
      have hlt : v < stop := by
        have := v.isLt
        rw [BitVec.lt_def]
        omega
      obtain ⟨advance, s1, hturn, hloop⟩ := loop_turn (p := p) hinv hflags hv hlt
      obtain ⟨new, hgrows⟩ := hturn.grows
      rw [hloop] at h
      cases advance with
      | none => cases h
      | some n => exact ih hgrows.inv (nthPage_aligned hv n) h

/-! ## The frames of the run -/

section Frames

variable {pm pm' : Pmm} {n : Nat} {a : Word}

theorem Pmm.FirstFit.runFrame_toNat (hinv : pm.Inv) (h : pm.FirstFit n a pm') {i : Nat}
    (hi : i < n) : (Pmm.runFrame a i).toNat = a.toNat + i * 4096 := by
  obtain ⟨b, hb, r, hrun, rfl⟩ := h.exists_run
  have hw := hinv.nonWrapping b hb
  have hend := hrun.2.1
  rw [Pmm.runFrame, ← PmBlock.frame_add, PmBlock.frame_toNat hw (by omega),
    PmBlock.frame_toNat hw (by omega)]
  omega

/-- The run ends at or below 2^52. -/
theorem Pmm.FirstFit.end_le (hinv : pm.Inv) (haddr : pm.Addressable) (h : pm.FirstFit n a pm')
    (hn : 0 < n) : a.toNat + n * 4096 ≤ 2 ^ 52 := by
  have hlast : n - 1 < n := by omega
  have hnum := h.runFrame_toNat hinv hlast
  obtain ⟨hal, hlt⟩ := haddr _ (.inl (h.free_run hlast))
  omega

/-- What is free before a call that grows the tree, and used after it: the frames
    of the new tables, the first ones of the allocator. -/
theorem Machine.Grows.free_used_iff {flags root : Word} {new : Finset (List Index)}
    {s s' : Machine} (hinv : s.pmm.Inv) (h : s.Grows flags root new s') (x : Word) :
    s.pmm.Free x ∧ s'.pmm.Used x ↔ x ∈ Pmm.firstFrames new.card s.pmm := by
  obtain ⟨frames, htakes, hlen, _⟩ := h.taken
  rw [htakes.used_iff hinv, ← hlen, ← htakes.eq_firstFrames hinv]
  constructor
  · rintro ⟨hfree, hused | hmem⟩
    · exact absurd hused (hinv.not_used_of_free hfree)
    · exact hmem
  · exact fun hmem => ⟨htakes.free_of_mem hinv hmem, .inr hmem⟩

end Frames

theorem pageBase_add_offset {x : Word} (hx : 4096 ∣ x.toNat) (w : Word) :
    pageBase (x + (w &&& 0xFFF#64)) = x := by
  have hlow := and_pageOffset_toNat w
  have hlt := x.isLt
  apply BitVec.eq_of_toNat_eq
  rw [pageBase_toNat, toNat_add_of_lt (by omega), hlow]
  omega

theorem PageRange.target_aligned (R : PageRange) (j : Nat) : 4096 ∣ (R.target j).toNat := by
  rw [target, and_physAddrMask_toNat]
  exact Nat.dvd_mul_left 4096 _

/-! ## A successful call -/

/-- The pages a `get_heap` call goes over, with its frames from `a` on. -/
structure PageRange.OfHeap (R : PageRange) (vaddr length a : Word) : Prop where
  vaddr_eq : R.vaddr = pageBase vaddr
  paddr_eq : R.paddr = a
  stop_eq : R.stop = vaddr + heapPages length * frameSize

theorem PageRange.OfHeap.unique {R R' : PageRange} {vaddr length a : Word}
    (h : R.OfHeap vaddr length a) (h' : R'.OfHeap vaddr length a) : R = R' := by
  cases R
  cases R'
  cases h.vaddr_eq.trans h'.vaddr_eq.symm
  cases h.paddr_eq.trans h'.paddr_eq.symm
  cases h.stop_eq.trans h'.stop_eq.symm
  rfl

/-- A successful call: the first run of free frames was reserved, and all pages
    were mapped. -/
structure HeapRun (root vaddr length : Word) (s s' : Machine) (a : Word) (pmm : Pmm)
    (R : PageRange) : Prop where
  inv : s.TreeInv root
  canonical : CanonicalRange vaddr length
  pos : 0 < length.toNat
  fit : s.pmm.FirstFit (heapPages length).toNat a pmm
  call : framesAllocate s.pmm (heapPages length) = .ok (a, pmm)
  range : R.OfHeap vaddr length a
  mapped : R.Progress readWriteBit root { s with pmm } R.pages s'

section Canonical

variable {vaddr length : Word} (h : CanonicalRange vaddr length)

include h

theorem CanonicalRange.heapEnd_toNat :
    (vaddr + heapPages length * frameSize).toNat
      = vaddr.toNat + (heapPages length).toNat * 4096 := by
  have hpages := heapPages_toNat length
  have hlen := length.isLt
  unfold CanonicalRange at h
  rw [toNat_add_of_lt, heapSize_toNat (by omega)]
  rw [heapSize_toNat (by omega)]
  omega

end Canonical

theorem getHeap_succeeded {root vaddr length : Word} {s s' : Machine} {fuel : Nat}
    (hinv : s.TreeInv root) (hrange : CanonicalRange vaddr length) (hpos : 0 < length.toNat)
    (h : getHeap fuel s root vaddr length = .ok (0, s')) :
    ∃ a pmm R, HeapRun root vaddr length s s' a pmm R := by
  rcases getHeap_cases hinv h with
    ⟨hr, _⟩ | ⟨a, pmm, s2, r2, hlen, hcall, _, hfit, hmap, hcase⟩
  · cases hr
  · rcases hcase with ⟨rfl, _, rfl⟩ | ⟨_, hr, _⟩
    · have hal := hfit.aligned hinv.frames (heapPages_pos hlen)
      rw [mapRange, pageBase_of_aligned hal] at hmap
      have hstop := hrange.heapEnd_toNat
      have hpages := heapPages_toNat length
      have hbase := pageBase_toNat vaddr
      -- an end in the last page would have kept the loop from returning 0
      have hclear : (vaddr + heapPages length * frameSize).toNat ≤ 2 ^ 64 - 4096 := by
        by_contra hlast
        exact loop_ne_zero plainFlags_readWriteBit (Nat.lt_of_not_le hlast) (hinv.of_firstFit hfit)
          (pageBase_aligned vaddr) hmap
      have hshort : (vaddr + heapPages length * frameSize).toNat
          ≤ (pageBase vaddr).toNat + 2 ^ 48 := by
        unfold CanonicalRange at hrange
        omega
      let R := PageRange.ofCall vaddr a (vaddr + heapPages length * frameSize) hclear hshort
      have hpaddr : R.paddr = a := pageBase_of_aligned hal
      rw [← hpaddr] at hmap
      refine ⟨a, pmm, R, hinv, hrange, hpos, hfit, hcall, ⟨rfl, hpaddr, rfl⟩, ?_⟩
      rcases R.run_cases (hinv.of_firstFit hfit) plainFlags_readWriteBit hmap with
        ⟨_, hprog, _⟩ | ⟨hr, _⟩
      · exact hprog
      · cases hr
    · cases hr

namespace HeapRun

variable {root vaddr length a : Word} {s s' : Machine} {pmm : Pmm} {R : PageRange}
  (h : HeapRun root vaddr length s s' a pmm R)

include h

theorem length_ne_zero : length ≠ 0#64 := by
  rintro rfl
  exact Nat.lt_irrefl 0 h.pos

theorem frames_pos : 0 < (heapPages length).toNat := heapPages_pos h.length_ne_zero

/-- One page for each frame, and one more when `vaddr` is inside a page. -/
theorem pages_eq : R.pages
    = (heapPages length).toNat + if vaddr.toNat % 4096 = 0 then 0 else 1 := by
  have hend := h.canonical.heapEnd_toNat
  have hbase := pageBase_toNat vaddr
  unfold PageRange.pages
  rw [h.range.stop_eq, h.range.vaddr_eq, hend, hbase]
  split
  · omega
  · omega

theorem pages_le : R.pages ≤ (heapPages length).toNat + 1 := by
  rw [h.pages_eq]
  split
  · exact Nat.le_succ _
  · exact Nat.le_refl _

/-- The frame asked for a page is the next one of the run. -/
theorem target_toNat {j : Nat} (hj : j ≤ (heapPages length).toNat) :
    (R.target j).toNat = (a.toNat + j * 4096) % 2 ^ 52 := by
  have hend := h.fit.end_le h.inv.pmm h.inv.frames h.frames_pos
  have hal := h.fit.aligned h.inv.frames h.frames_pos
  have hmul : j * 4096 ≤ (heapPages length).toNat * 4096 := Nat.mul_le_mul_right 4096 hj
  rw [PageRange.target, PageRange.frame, h.range.paddr_eq, and_physAddrMask_toNat,
    nthPage_toNat (by omega)]
  omega

theorem target_eq {j : Nat} (hj : j < (heapPages length).toNat) :
    R.target j = Pmm.runFrame a j := by
  have hframe := h.fit.runFrame_toNat h.inv.pmm hj
  have hlt := (h.inv.frames _ (.inl (h.fit.free_run hj))).2
  apply BitVec.eq_of_toNat_eq
  rw [h.target_toNat hj.le, hframe]
  exact Nat.mod_eq_of_lt (hframe ▸ hlt)

/-- The frames of all pages are distinct, the one after the reservation included. -/
theorem target_inj {i j : Nat} (hi : i < R.pages) (hj : j < R.pages)
    (heq : R.target i = R.target j) : i = j := by
  have hle := h.pages_le
  have hend := h.fit.end_le h.inv.pmm h.inv.frames h.frames_pos
  have hmuli : i * 4096 ≤ (heapPages length).toNat * 4096 := Nat.mul_le_mul_right 4096 (by omega)
  have hmulj : j * 4096 ≤ (heapPages length).toNat * 4096 := Nat.mul_le_mul_right 4096 (by omega)
  -- the run does not start at frame 0, so only its end can come round to 0
  have ha : 0 < a.toNat := by
    have hfree := h.fit.free_run h.frames_pos
    rw [show Pmm.runFrame a 0 = a from nthPage_zero a] at hfree
    refine Nat.pos_of_ne_zero fun h0 => h.inv.null_not_free ?_
    rw [show a = null from BitVec.eq_of_toNat_eq h0] at hfree
    exact hfree
  have hnum := congrArg BitVec.toNat heq
  rw [h.target_toNat (by omega), h.target_toNat (by omega)] at hnum
  omega

/-- The frames that were free before the call and are used after it: the reserved
    ones and those of the new tables. -/
theorem free_used_iff (x : Word) : s.pmm.Free x ∧ s'.pmm.Used x ↔
    (∃ i, i < (heapPages length).toNat ∧ x = Pmm.runFrame a i) ∨
    x ∈ Pmm.firstFrames (R.needed root { s with pmm } R.pages).card pmm := by
  have hinv1 := h.inv.of_firstFit h.fit
  have hgrown := h.mapped.grows.free_used_iff hinv1.pmm x
  rw [← hgrown]
  constructor
  · rintro ⟨hfree, hused⟩
    by_cases hin : ∃ i, i < (heapPages length).toNat ∧ x = Pmm.runFrame a i
    · exact .inl hin
    · refine .inr ⟨(h.fit.free_iff h.inv.pmm x).mpr ⟨hfree, fun i hi heq => hin ⟨i, hi, heq⟩⟩, hused⟩
  · rintro (⟨i, hi, rfl⟩ | ⟨hfree, hused⟩)
    · refine ⟨h.fit.free_run hi, (h.mapped.grows.used_iff hinv1 _).mpr (.inl ?_)⟩
      exact (h.fit.used_iff h.inv.pmm _).mpr (.inr ⟨i, hi, rfl⟩)
    · exact ⟨((h.fit.free_iff h.inv.pmm x).mp hfree).1, hused⟩

/-- The frame after the reservation is none of those reserved. -/
theorem extra_not_reserved (hextra : (heapPages length).toNat < R.pages) {i : Nat}
    (hi : i < (heapPages length).toNat) :
    R.target (heapPages length).toNat ≠ Pmm.runFrame a i := by
  intro heq
  rw [← h.target_eq hi] at heq
  have := h.target_inj hextra (by omega) heq
  omega

/-! ### The translation afterwards -/

theorem translate_page {w : Word} {j : Nat} (hj : j < R.pages) (hw : path 4 w = path 4 (R.page j)) :
    translate s'.mem root w = some (R.target j + (w &&& 0xFFF#64)) := by
  apply translate_of_pageFrame
  rw [Machine.pageFrame_congr hw]
  exact h.mapped.done j hj

theorem translate_rest {w : Word} (hw : ∀ j, j < R.pages → path 4 w ≠ path 4 (R.page j)) :
    translate s'.mem root w = translate s.mem root w :=
  translate_eq_of_pageFrame (h.mapped.rest w hw)

/-- The page of a byte of the range. -/
theorem page_of_byte {k : Nat} (hk : k < length.toNat) :
    (vaddr.toNat % 4096 + k) / 4096 < R.pages ∧
      path 4 (nthByte vaddr k) = path 4 (R.page ((vaddr.toNat % 4096 + k) / 4096)) := by
  have hpages := heapPages_toNat length
  have hcount := h.pages_eq
  have hrange := h.canonical
  unfold CanonicalRange at hrange
  have hlt : (vaddr.toNat % 4096 + k) / 4096 < R.pages := by
    rw [hcount]
    split
    · omega
    · omega
  exact ⟨hlt, PageRange.path_of_byte h.range.vaddr_eq (by omega) hlt.le⟩

end HeapRun

/-! ## What the claim on a heap needs -/

/-- The heap at `vaddr` is the caller's: each byte is mapped, to frames that were
    free and are used now, different pages to different frames, and a page whose
    translation the call changed goes to a frame that the call reserved. -/
structure Machine.HeapOwned (root vaddr length : Word) (s s' : Machine) : Prop where
  backed : ∀ k, k < length.toNat → ∃ x, translate s'.mem root (nthByte vaddr k) = some x ∧
    s.pmm.Free (pageBase x) ∧ s'.pmm.Used (pageBase x)
  distinct : ∀ k k' x x', k < length.toNat → k' < length.toNat →
    pageNumber (nthByte vaddr k) ≠ pageNumber (nthByte vaddr k') →
    translate s'.mem root (nthByte vaddr k) = some x →
    translate s'.mem root (nthByte vaddr k') = some x' → pageBase x ≠ pageBase x'
  confined : ∀ w, translate s'.mem root w ≠ translate s.mem root w →
    ∃ x ∈ TableCall.heapFrames s.pmm length,
      translate s'.mem root w = some (x + (w &&& 0xFFF#64))

/-- `vaddr` is page-aligned, or the page after as many pages as frames is mapped to
    the frame after the run already and either lies outside the bytes asked for or
    gets a frame that becomes a table. -/
def Machine.HeapFits (root vaddr length : Word) (s : Machine) : Prop :=
  vaddr.toNat % 4096 = 0 ∨
  ∃ a pmm R, s.pmm.FirstFit (heapPages length).toNat a pmm ∧
    PageRange.OfHeap R vaddr length a ∧
    s.Mapped root (R.page (heapPages length).toNat) (R.frame (heapPages length).toNat) ∧
    (vaddr.toNat % 4096 + length.toNat ≤ (heapPages length).toNat * 4096 ∨
      R.target (heapPages length).toNat
        ∈ Pmm.firstFrames (R.needed root { s with pmm } R.pages).card pmm)

namespace HeapRun

variable {root vaddr length a : Word} {s s' : Machine} {pmm : Pmm} {R : PageRange}
  (h : HeapRun root vaddr length s s' a pmm R)

include h

theorem mem_heapFrames {x : Word} : x ∈ TableCall.heapFrames s.pmm length ↔
    ∃ i, i < (heapPages length).toNat ∧ x = Pmm.runFrame a i := by
  rw [TableCall.heapFrames_eq h.call]
  exact mem_runFrames

/-- The heap is the caller's when the page past the reservation, if there is one,
    translates as before and to a frame that was free and is used now where the
    bytes asked for reach it. -/
theorem owned_of_extra
    (hsame : (heapPages length).toNat < R.pages →
      s.Mapped root (R.page (heapPages length).toNat) (R.frame (heapPages length).toNat))
    (hfree : ∀ k, k < length.toNat →
      (vaddr.toNat % 4096 + k) / 4096 = (heapPages length).toNat →
      s.pmm.Free (R.target (heapPages length).toNat) ∧
        s'.pmm.Used (R.target (heapPages length).toNat)) :
    Machine.HeapOwned root vaddr length s s' := by
  have hle := h.pages_le
  have hbyte : ∀ {k : Nat}, k < length.toNat → translate s'.mem root (nthByte vaddr k)
      = some (R.target ((vaddr.toNat % 4096 + k) / 4096) + (nthByte vaddr k &&& 0xFFF#64)) :=
    fun hk => h.translate_page (h.page_of_byte hk).1 (h.page_of_byte hk).2
  refine ⟨fun k hk => ⟨_, hbyte hk, ?_⟩, fun k k' x x' hk hk' hne hx hx' heq => ?_, fun w hw => ?_⟩
  · rw [pageBase_add_offset (R.target_aligned _)]
    have hj := (h.page_of_byte hk).1
    rcases Nat.lt_or_ge ((vaddr.toNat % 4096 + k) / 4096) (heapPages length).toNat with hlt | hge
    · exact (h.free_used_iff _).mpr (.inl ⟨_, hlt, h.target_eq hlt⟩)
    · have hlast : (vaddr.toNat % 4096 + k) / 4096 = (heapPages length).toNat := by omega
      rw [hlast]
      exact hfree k hk hlast
  · rw [hbyte hk] at hx
    rw [hbyte hk'] at hx'
    cases hx
    cases hx'
    rw [pageBase_add_offset (R.target_aligned _), pageBase_add_offset (R.target_aligned _)] at heq
    have hj := h.target_inj (h.page_of_byte hk).1 (h.page_of_byte hk').1 heq
    refine hne (path_four_eq_iff.mp ?_)
    rw [(h.page_of_byte hk).2, (h.page_of_byte hk').2, hj]
  · -- a page whose translation changed is one of the pages that have a frame
    by_cases hin : ∃ j, j < R.pages ∧ path 4 w = path 4 (R.page j)
    · obtain ⟨j, hj, hpath⟩ := hin
      have htrans := h.translate_page hj hpath
      rcases Nat.lt_or_ge j (heapPages length).toNat with hlt | hge
      · rw [h.target_eq hlt] at htrans
        exact ⟨_, h.mem_heapFrames.mpr ⟨j, hlt, rfl⟩, htrans⟩
      · have hlast : j = (heapPages length).toNat := by omega
        subst hlast
        refine absurd ?_ hw
        rw [htrans]
        refine (translate_of_pageFrame ?_).symm
        rw [Machine.pageFrame_congr hpath]
        exact hsame hj
    · refine absurd (h.translate_rest fun j hj heq => hin ⟨j, hj, heq⟩) hw

/-- When the heap is the caller's, the page past the reservation translated the same
    before the call. -/
theorem mapped_of_owned (howned : Machine.HeapOwned root vaddr length s s')
    (hextra : (heapPages length).toNat < R.pages) :
    s.Mapped root (R.page (heapPages length).toNat) (R.frame (heapPages length).toNat) := by
  have htrans := h.translate_page hextra rfl
  have hsame : translate s'.mem root (R.page (heapPages length).toNat)
      = translate s.mem root (R.page (heapPages length).toNat) := by
    by_contra hne
    obtain ⟨x, hx, hnew⟩ := howned.confined _ hne
    obtain ⟨i, hi, rfl⟩ := h.mem_heapFrames.mp hx
    rw [htrans] at hnew
    exact h.extra_not_reserved hextra hi ((BitVec.add_left_inj _).mp (Option.some.inj hnew))
  rw [Machine.Mapped, ← pageFrame_eq_of_translate hsame]
  exact h.mapped.done _ hextra

/-- And its frame was free if the bytes asked for reach it. -/
theorem table_of_owned (howned : Machine.HeapOwned root vaddr length s s')
    (hextra : (heapPages length).toNat < R.pages)
    (hreach : (heapPages length).toNat * 4096 < vaddr.toNat % 4096 + length.toNat) :
    R.target (heapPages length).toNat
      ∈ Pmm.firstFrames (R.needed root { s with pmm } R.pages).card pmm := by
  have hcount := heapPages_toNat length
  have hpos := h.pos
  -- the first byte of that page
  let k := (heapPages length).toNat * 4096 - vaddr.toNat % 4096
  have hk : k < length.toNat := by omega
  have hpage : (vaddr.toNat % 4096 + k) / 4096 = (heapPages length).toNat := by omega
  obtain ⟨x, hx, hfree⟩ := howned.backed k hk
  rw [h.translate_page (h.page_of_byte hk).1 (h.page_of_byte hk).2, hpage] at hx
  cases hx
  rw [pageBase_add_offset (R.target_aligned _)] at hfree
  rcases (h.free_used_iff _).mp hfree with ⟨i, hi, heq⟩ | htable
  · exact absurd heq (h.extra_not_reserved hextra hi)
  · exact htable

theorem owned_iff : Machine.HeapOwned root vaddr length s s' ↔
    Machine.HeapFits root vaddr length s := by
  have hcount := h.pages_eq
  constructor
  · intro howned
    by_cases hal : vaddr.toNat % 4096 = 0
    · exact .inl hal
    · rw [if_neg hal] at hcount
      refine .inr ⟨a, pmm, R, h.fit, h.range, h.mapped_of_owned howned (by omega), ?_⟩
      rcases Nat.lt_or_ge ((heapPages length).toNat * 4096) (vaddr.toNat % 4096 + length.toNat) with
        hreach | hshort
      · exact .inr (h.table_of_owned howned (by omega) hreach)
      · exact .inl hshort
  · rintro (hal | ⟨a', pmm', R', hfit, hrange, hmapped, hlast⟩)
    · rw [if_pos hal] at hcount
      refine h.owned_of_extra (fun hextra => by omega) fun k hk hpage => ?_
      have := (h.page_of_byte hk).1
      omega
    · obtain ⟨rfl, rfl⟩ := h.fit.unique hfit
      obtain rfl := h.range.unique hrange
      refine h.owned_of_extra (fun _ => hmapped) fun k hk hpage => ?_
      rcases hlast with hshort | htable
      · -- a byte of the last page reaches past the reservation
        omega
      · exact (h.free_used_iff _).mpr (.inr htable)

end HeapRun

/-- The state after `get_heap(0x400800, 0x1000)` in the six-page system. -/
def extraMapped : Machine :=
  machineAfter sixPagesSystem.machine
    (getHeap 3 sixPagesSystem.machine 0x1000#64 0x400800#64 0x1000#64)

/-- A heap of one page that starts in the middle of a page: one frame is reserved
    and two pages are mapped, the second one to the frame of the call's first new
    table. -/
theorem heap_extra_mapped :
    System.Reachable oneBlock sixPagesMap.toMemoryMap sixPagesSystem ∧
    sixPagesSystem.pml4 = some 0x1000#64 ∧ CanonicalRange 0x400800#64 0x1000#64 ∧
    getHeap 3 sixPagesSystem.machine 0x1000#64 0x400800#64 0x1000#64 = .ok (0, extraMapped) ∧
    TableCall.heapFrames sixPagesSystem.machine.pmm 0x1000#64 = [0x2000#64] ∧
    translate sixPagesSystem.machine.mem 0x1000#64 0x401000#64 = none ∧
    translate extraMapped.mem 0x1000#64 0x401000#64 = some 0x3000#64 ∧
    ∃ p, extraMapped.tableAt 0x1000#64 p = some 0x3000#64 :=
  ⟨sixPagesSystem_reachable, rfl, .inl (by decide), rfl, rfl, by decide, by decide,
    path 1 0x400800#64, by decide⟩

/-- **When a successful `get_heap` maps only memory it owns.**  In every reachable
    state, for a range in one canonical half: after a call that returned 0 the heap
    is the caller's if and only if `HeapFits`, so always for page-aligned ranges
    and, with the page past the reservation not mapped before, only for them. -/
theorem heap_owned_iff_fits {storage : PmmStorage} {mmap : PhysicalMap} {sys : System}
    (h : System.Reachable storage mmap.toMemoryMap sys) {root : Word}
    (hroot : sys.pml4 = some root) {fuel : Nat} {vaddr length : Word} {s : Machine}
    (hrange : CanonicalRange vaddr length) (hpos : 0 < length.toNat)
    (hcall : getHeap fuel sys.machine root vaddr length = .ok (0, s)) :
    Machine.HeapOwned root vaddr length sys.machine s ↔
      Machine.HeapFits root vaddr length sys.machine := by
  obtain ⟨a, pmm, R, hrun⟩ := getHeap_succeeded (h.inv.tree root hroot) hrange hpos hcall
  exact hrun.owned_iff

/-- A heap of one page at 0x400000 in the six-page system is the caller's. -/
theorem heap_owned_iff_fits_aligned : ∃ s,
    getHeap 2 sixPagesSystem.machine 0x1000#64 0x400000#64 0x1000#64 = .ok (0, s) ∧
    Machine.HeapOwned 0x1000#64 0x400000#64 0x1000#64 sixPagesSystem.machine s := by
  have hrange : CanonicalRange 0x400000#64 0x1000#64 := .inl (by decide)
  have hcall : getHeap 2 sixPagesSystem.machine 0x1000#64 0x400000#64 0x1000#64
    = .ok (0, machineAfter sixPagesSystem.machine
        (getHeap 2 sixPagesSystem.machine 0x1000#64 0x400000#64 0x1000#64)) := rfl
  exact ⟨_, hcall, (heap_owned_iff_fits sixPagesSystem_reachable sixPagesSystem_pml4 hrange
    (by decide) hcall).mpr (.inl (by decide))⟩

end EchOS
