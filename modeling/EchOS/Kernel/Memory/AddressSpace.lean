/-
  EchOS.Kernel.Memory.AddressSpace

  The address space that the page tables stand for: the mappings that calls have made
  since `init_pml4`, newest first.  An address leads where the newest mapping that has
  its page says (`page_tables_are_map`), whatever tables were built on the way.

  `map_page` and `map_large_page` map all or nothing; `map_range` and `get_heap` go page
  by page, and one that fails has mapped the first of its pages (`Request.Made`).
-/
import EchOS.Kernel.Memory.HeapMemory

namespace EchOS

open FlatMemory

/-! ## Mappings -/

theorem findSome?_cons_eq_or {α β : Type} (f : α → Option β) (a : α) (l : List α) :
    (a :: l).findSome? f = (f a).or (l.findSome? f) := by
  rw [List.findSome?_cons]
  cases f a with
  | none => rfl
  | some b => rfl

/-- `pages` pages from the page of `vaddr` on lead to the frames from `paddr` on. -/
structure Mapping where
  vaddr : Word
  paddr : Word
  pages : Nat

namespace Mapping

/-- Which page from `vaddr` on the page of `w` is.  The first of the 2^36 pages comes
    after the last. -/
def nth (m : Mapping) (w : Word) : Nat := (pageNumber w + 2 ^ 36 - pageNumber m.vaddr) % 2 ^ 36

/-- The frame of the page of `w`, if the mapping has the page. -/
def frame (m : Mapping) (w : Word) : Option Word :=
  if m.nth w < m.pages then some (nthPage m.paddr (m.nth w) &&& physAddrMask) else none

/-- The frame of the page of `w` in the first of the mappings that have it. -/
def newest (log : List Mapping) (w : Word) : Option Word := log.findSome? fun m => m.frame w

theorem newest_cons (m : Mapping) (log : List Mapping) (w : Word) :
    newest (m :: log) w = (m.frame w).or (newest log w) :=
  findSome?_cons_eq_or _ m log

end Mapping

theorem pageNumber_lt (v : Word) : pageNumber v < 2 ^ 36 := Nat.mod_lt _ (by decide)

theorem pageNumber_nthPage (v : Word) (j : Nat) :
    pageNumber (nthPage v j) = (pageNumber v + j) % 2 ^ 36 := by
  unfold pageNumber nthPage Pmm.runFrame
  rw [BitVec.toNat_add, BitVec.toNat_mul, frameSize_toNat, BitVec.toNat_ofNat]
  omega

namespace Mapping

variable {m : Mapping} {w : Word} {j : Nat}

theorem path_nth (m : Mapping) (w : Word) : path 4 w = path 4 (nthPage m.vaddr (m.nth w)) := by
  have hw := pageNumber_lt w
  have hv := pageNumber_lt m.vaddr
  rw [path_four_eq_iff, pageNumber_nthPage, nth]
  omega

theorem nth_of_path (hj : j < 2 ^ 36) (h : path 4 w = path 4 (nthPage m.vaddr j)) :
    m.nth w = j := by
  have hv := pageNumber_lt m.vaddr
  rw [path_four_eq_iff, pageNumber_nthPage] at h
  rw [nth, h]
  omega

theorem frame_of_path (hle : m.pages ≤ 2 ^ 36) (hj : j < m.pages)
    (h : path 4 w = path 4 (nthPage m.vaddr j)) :
    m.frame w = some (nthPage m.paddr j &&& physAddrMask) := by
  rw [frame, nth_of_path (by omega) h, if_pos hj]

theorem frame_eq_none (h : ∀ j, j < m.pages → path 4 w ≠ path 4 (nthPage m.vaddr j)) :
    m.frame w = none :=
  if_neg fun hlt => h _ hlt (m.path_nth w)

end Mapping

/-! ## What calls map -/

/-- The start of the 2 MiB page of `a`. -/
def largeBase (a : Word) : Word := a &&& ~~~(largePageSize - 1#64)

/-- The first of the frames that `get_heap` reserves. -/
def heapStart (pm : Pmm) (length : Word) : Word :=
  match framesAllocate pm (heapPages length) with
  | .ok (a, _) => a
  | .error _ => noFrame

namespace TableCall

/-- What the call is to map. -/
def mapping (pm : Pmm) : TableCall → Mapping
  | .mapPage vaddr paddr _ => ⟨vaddr, paddr, 1⟩
  | .mapLargePage vaddr paddr _ => ⟨largeBase vaddr, largeBase paddr, 512⟩
  | .mapRange vaddr paddr length _ =>
      ⟨pageBase vaddr, pageBase paddr, spanPages (pageBase vaddr) (vaddr + length)⟩
  | .getHeap vaddr length =>
      ⟨pageBase vaddr, pageBase (heapStart pm length),
        spanPages (pageBase vaddr) (vaddr + heapPages length * frameSize)⟩

/-- The call maps one page after another. -/
def ByPages : TableCall → Prop
  | .mapPage _ _ _ | .mapLargePage _ _ _ => False
  | .mapRange _ _ _ _ | .getHeap _ _ => True

/-- The flags have no bits 12 to 51; a range ends clear of the last page and has no
    page twice. -/
def Tidy : TableCall → Prop
  | .mapPage _ _ flags | .mapLargePage _ _ flags => PlainFlags flags
  | .mapRange vaddr _ length flags => PlainFlags flags ∧ Short vaddr (vaddr + length)
  | .getHeap vaddr length => Short vaddr (vaddr + heapPages length * frameSize)
where
  Short (vaddr stop : Word) : Prop :=
    stop.toNat ≤ 2 ^ 64 - 4096 ∧ stop.toNat ≤ (pageBase vaddr).toNat + 2 ^ 48

end TableCall

/-- A call that returned, with the pmm it found. -/
structure Request where
  call : TableCall
  pmm : Pmm
  result : Int

/-- What the call was to map. -/
def Request.asked (q : Request) : Mapping := q.call.mapping q.pmm

/-- The call has made the mapping `m`: what it was to map if it returned 0, and otherwise
    nothing, or the first of the pages if it goes by pages. -/
structure Request.Made (q : Request) (m : Mapping) : Prop where
  vaddr_eq : m.vaddr = q.asked.vaddr
  paddr_eq : m.paddr = q.asked.paddr
  pages : q.result = 0 ∧ m.pages = q.asked.pages ∨
    q.result = -1 ∧ (m.pages = 0 ∨ q.call.ByPages ∧ m.pages < q.asked.pages)

/-- A call that returned 0 has made all it was asked for. -/
theorem Request.Made.eq_asked {q : Request} {m : Mapping} (h : q.Made m) (hr : q.result = 0) :
    m = q.asked := by
  obtain ⟨hv, hp, ⟨_, hpages⟩ | ⟨hfail, _⟩⟩ := h
  · cases m
    cases hv
    cases hp
    cases hpages
    rfl
  · rw [hr] at hfail
    cases hfail

/-- The translation of `s'` is that of `s` with the mapping `m` on top. -/
def Machine.Gains (root : Word) (m : Mapping) (s s' : Machine) : Prop :=
  ∀ w, s'.pageFrame root w = (m.frame w).or (s.pageFrame root w)

section Calls

variable {root : Word} {s s' : Machine} {m : Mapping}

theorem Machine.Gains.of_zero (hzero : m.pages = 0)
    (h : s'.pageFrame root = s.pageFrame root) : s.Gains root m s' := by
  intro w
  rw [Mapping.frame_eq_none (fun j hj => by omega), h]
  rfl

theorem Machine.Gains.newest {log : List Mapping} (h : s.Gains root m s')
    (hlog : ∀ w, s.pageFrame root w = Mapping.newest log w) (w : Word) :
    s'.pageFrame root w = Mapping.newest (m :: log) w := by
  rw [h w, hlog w, Mapping.newest_cons]

theorem Machine.pageFrame_of_mem (h : s'.mem = s.mem) :
    s'.pageFrame root = s.pageFrame root := by
  funext w
  have hsame : s.SameLeaves root w s' := .of_mem (.refl s) h
  exact hsame.pageFrame_eq

/-- Page by page. -/
theorem Machine.Gains.of_pages (hle : m.pages ≤ 2 ^ 36)
    (hdone : ∀ j, j < m.pages →
      s'.pageFrame root (nthPage m.vaddr j) = some (nthPage m.paddr j &&& physAddrMask))
    (hrest : ∀ w, (∀ j, j < m.pages → path 4 w ≠ path 4 (nthPage m.vaddr j)) →
      s'.pageFrame root w = s.pageFrame root w) : s.Gains root m s' := by
  intro w
  by_cases hw : ∃ j, j < m.pages ∧ path 4 w = path 4 (nthPage m.vaddr j)
  · obtain ⟨j, hj, hpath⟩ := hw
    rw [Mapping.frame_of_path hle hj hpath, Machine.pageFrame_congr hpath, hdone j hj]
    rfl
  · have hnone : ∀ j, j < m.pages → path 4 w ≠ path 4 (nthPage m.vaddr j) :=
      fun j hj heq => hw ⟨j, hj, heq⟩
    rw [Mapping.frame_eq_none hnone, hrest w hnone]
    rfl

theorem PageRange.Progress.gains {R : PageRange} {flags : Word} {k : Nat}
    (h : R.Progress flags root s k s') : s.Gains root ⟨R.vaddr, R.paddr, k⟩ s' :=
  .of_pages (Nat.le_trans h.le R.pages_le) h.done h.rest

/-- An offset between two starts of pages is none. -/
theorem eq_of_add_pageOffset {x y v : Word} (hx : 4096 ∣ x.toNat) (hy : 4096 ∣ y.toNat)
    (h : x + (v &&& 0xFFF#64) = y) : x = y := by
  have hoff := and_pageOffset_toNat v
  have hnat := congrArg BitVec.toNat h
  have hlt := x.isLt
  rw [toNat_add_of_lt (by omega)] at hnat
  apply BitVec.eq_of_toNat_eq
  omega

/-- `map_page`, also for an address inside a page. -/
theorem mapPage_gains (hinv : s.TreeInv root) {v p flags : Word} (hflags : PlainFlags flags)
    {r : Int} (h : mapPage s root v p flags = .ok (r, s')) :
    r = 0 ∧ s.Gains root ⟨v, p, 1⟩ s' ∨ r = -1 ∧ s'.pageFrame root = s.pageFrame root := by
  have hgains : ∀ (hpage : s'.pageFrame root v = some (p &&& physAddrMask))
      (hrest : ∀ w, path 4 w ≠ path 4 v → s'.pageFrame root w = s.pageFrame root w),
      s.Gains root ⟨v, p, 1⟩ s' := by
    intro hpage hrest
    refine .of_pages (Nat.one_le_two_pow (n := 36)) (fun j hj => ?_) fun w hw => hrest w ?_
    · rw [Nat.lt_one_iff.mp hj, nthPage_zero, nthPage_zero]
      exact hpage
    · have hne := hw 0 Nat.one_pos
      rwa [nthPage_zero] at hne
  rcases mapPage_cases hinv v flags p hflags with
    ⟨b, s2, hcov, hcall, _, hleaf⟩ | ⟨s2, _, hcall, hstarve⟩ | ⟨s2, hunc, hcall, _, hleaf⟩
  · -- under a 2 MiB page the call returns 0 where the page leads to the frame already
    have hframe := Machine.pageFrame_eq_of_leafAt hleaf
    split at hcall
    · rename_i hsame
      cases h.symm.trans hcall
      have hlarge := Machine.largeFrame_toNat b v
      have hp := and_physAddrMask_toNat p
      have heq := eq_of_add_pageOffset (by omega) (by omega) hsame
      refine .inl ⟨rfl, hgains ?_ fun w _ => congrFun hframe w⟩
      rw [hframe, Machine.pageFrame_of_large hcov, heq]
    · cases h.symm.trans hcall
      exact .inr ⟨rfl, hframe⟩
  · cases h.symm.trans hcall
    exact .inr ⟨rfl, Machine.pageFrame_eq_of_leafAt hstarve.leafAt_eq⟩
  · cases h.symm.trans hcall
    have hupdate := Machine.pageFrame_update_small hleaf hunc
    refine .inl ⟨rfl, hgains ?_ fun w hne => ?_⟩
    · rw [hupdate, if_pos rfl]
    · rw [hupdate, if_neg hne]

theorem largeBase_toNat (a : Word) : (largeBase a).toNat = a.toNat / 2 ^ 21 * 2 ^ 21 :=
  and_not_largeOffset_toNat a

/-- The pages of a 2 MiB page, and their frames. -/
theorem path_three_largeBase {v w : Word} :
    path 3 w = path 3 v ↔ ∃ j, j < 512 ∧ path 4 w = path 4 (nthPage (largeBase v) j) := by
  have hbase := largeBase_toNat v
  constructor
  · intro h
    refine exists_page_of_region (by omega) (h.trans ?_)
    rw [path_three_eq_iff, regionNumber, regionNumber, hbase]
    omega
  · rintro ⟨j, hj, h⟩
    rw [path_three_eq_of_path_four_eq h, path_three_nthPage (by omega) hj, path_three_eq_iff,
      regionNumber, regionNumber, hbase]
    omega

theorem largeFrame_nthPage {v p : Word} {j : Nat} (hj : j < 512) :
    Machine.largeFrame (p &&& physAddrMask) (nthPage (largeBase v) j)
      = nthPage (largeBase p) j &&& physAddrMask := by
  have hv := largeBase_toNat v
  have hp := largeBase_toNat p
  have hvlt := v.isLt
  have hplt := p.isLt
  apply BitVec.eq_of_toNat_eq
  rw [Machine.largeFrame_toNat, and_physAddrMask_toNat, and_physAddrMask_toNat,
    nthPage_toNat (by omega), nthPage_toNat (by omega), hv, hp]
  omega

theorem mapLargePage_gains (hinv : s.TreeInv root) {v p flags : Word} (hflags : PlainFlags flags)
    {r : Int} (h : mapLargePage s root v p flags = .ok (r, s')) :
    r = 0 ∧ s.Gains root ⟨largeBase v, largeBase p, 512⟩ s' ∨
      r = -1 ∧ s'.pageFrame root = s.pageFrame root := by
  obtain ⟨r2, s2, hcall, hr, hzero, hfail⟩ := mapLargePage_update hinv (v := v) (p := p) hflags
  cases h.symm.trans hcall
  rcases hr with rfl | rfl
  · have hupdate := hzero rfl
    refine .inl ⟨rfl, .of_pages (m := ⟨largeBase v, largeBase p, 512⟩) (by simp) (fun j hj => ?_)
      fun w hw => ?_⟩
    · rw [hupdate, if_pos (path_three_largeBase.mpr ⟨j, hj, rfl⟩), largeFrame_nthPage hj]
    · rw [hupdate, if_neg]
      intro heq
      obtain ⟨j, hj, hpath⟩ := path_three_largeBase.mp heq
      exact hw j hj hpath
  · exact .inr ⟨rfl, hfail rfl⟩

/-- The loop of `map_range`, whatever it returns. -/
theorem loop_gains (hinv : s.TreeInv root) {vaddr paddr stop flags : Word}
    (hflags : PlainFlags flags) (hshort : TableCall.Tidy.Short vaddr stop) {fuel : Nat} {r : Int}
    (h : mapRange.loop root stop flags fuel s (pageBase vaddr) (pageBase paddr) = .ok (r, s')) :
    ∃ n, (r = 0 ∧ n = spanPages (pageBase vaddr) stop ∨
        r = -1 ∧ n < spanPages (pageBase vaddr) stop) ∧
      s.Gains root ⟨pageBase vaddr, pageBase paddr, n⟩ s' := by
  let R : PageRange := .ofCall vaddr paddr stop hshort.1 hshort.2
  rcases R.run_cases hinv hflags h with
    ⟨rfl, hprog, _⟩ | ⟨rfl, n, s1, _, hn, hprog, _, hframe, _⟩
  · exact ⟨R.pages, .inl ⟨rfl, rfl⟩, hprog.gains⟩
  · refine ⟨n, .inr ⟨rfl, hn⟩, fun w => ?_⟩
    -- the turn that failed has mapped nothing
    rw [hframe]
    exact hprog.gains w

/-- What every call makes of the translation. -/
theorem TableCall.gains (hinv : s.TreeInv root) (call : TableCall) (htidy : call.Tidy) {fuel : Nat}
    {r : Int} (h : call.run fuel s root = .ok (r, s')) :
    ∃ m, Request.Made ⟨call, s.pmm, r⟩ m ∧ s.Gains root m s' := by
  cases call with
  | mapPage vaddr paddr flags =>
      rcases mapPage_gains hinv htidy h with ⟨rfl, hgains⟩ | ⟨rfl, hframe⟩
      · exact ⟨_, ⟨rfl, rfl, .inl ⟨rfl, rfl⟩⟩, hgains⟩
      · exact ⟨⟨vaddr, paddr, 0⟩, ⟨rfl, rfl, .inr ⟨rfl, .inl rfl⟩⟩, .of_zero rfl hframe⟩
  | mapLargePage vaddr paddr flags =>
      rcases mapLargePage_gains hinv htidy h with ⟨rfl, hgains⟩ | ⟨rfl, hframe⟩
      · exact ⟨_, ⟨rfl, rfl, .inl ⟨rfl, rfl⟩⟩, hgains⟩
      · exact ⟨⟨largeBase vaddr, largeBase paddr, 0⟩, ⟨rfl, rfl, .inr ⟨rfl, .inl rfl⟩⟩,
          .of_zero rfl hframe⟩
  | mapRange vaddr paddr length flags =>
      obtain ⟨n, hn, hgains⟩ := loop_gains hinv htidy.1 htidy.2 h
      exact ⟨⟨pageBase vaddr, pageBase paddr, n⟩,
        ⟨rfl, rfl, hn.imp_right (And.imp_right fun hlt => .inr ⟨trivial, hlt⟩)⟩, hgains⟩
  | getHeap vaddr length =>
      rcases getHeap_cases hinv h with
        ⟨rfl, rfl, _⟩ | ⟨a, pmm, s2, r2, _, hcall, _, hfit, hmap, hend⟩
      · exact ⟨⟨pageBase vaddr, pageBase (heapStart s'.pmm length), 0⟩,
          ⟨rfl, rfl, .inr ⟨rfl, .inl rfl⟩⟩, .of_zero rfl rfl⟩
      · have hstart : heapStart s.pmm length = a := by
          rw [heapStart, hcall]
        obtain ⟨n, hn, hgains⟩ :=
          loop_gains (hinv.of_firstFit hfit) plainFlags_readWriteBit htidy hmap
        have hbefore : Machine.Gains root ⟨pageBase vaddr, pageBase a, n⟩ s s2 := hgains
        refine ⟨⟨pageBase vaddr, pageBase a, n⟩, ⟨rfl, ?_, ?_⟩, ?_⟩
        · rw [Request.asked, TableCall.mapping, hstart]
        · rcases hn with ⟨rfl, hn⟩ | ⟨rfl, hn⟩
          · rcases hend with ⟨_, rfl, _⟩ | ⟨hr2, _⟩
            · exact .inl ⟨rfl, hn⟩
            · cases hr2
          · rcases hend with ⟨hr2, _⟩ | ⟨_, rfl, _⟩
            · cases hr2
            · exact .inr ⟨rfl, .inr ⟨trivial, hn⟩⟩
        · rcases hend with ⟨_, _, rfl⟩ | ⟨_, _, hmem, _⟩
          · exact hbefore
          · -- giving the frames back writes no memory
            intro w
            rw [Machine.pageFrame_of_mem hmem]
            exact hbefore w

end Calls

/-! ## Runs -/

namespace ByteSystem

/-- Some run leads from `start` to a system in which the calls on the tree, newest
    first, were `history`. -/
inductive Recorded (built : Pmm) (start : ByteSystem) : List Request → ByteSystem → Prop where
  | start : Recorded built start [] start
  | other {history : List Request} {sys sys' : ByteSystem} {act : Action}
      (before : Recorded built start history sys) (step : Step built sys act sys')
      (noCall : ∀ call, act ≠ .table call) : Recorded built start history sys'
  | table {history : List Request} {sys : ByteSystem} {root : Word} {fuel : Nat} {r : Int}
      {b : ByteMachine} (before : Recorded built start history sys) (pml4 : sys.pml4 = some root)
      (call : TableCall) (run : call.runFlat fuel sys.machine root = .ok (r, b)) :
      Recorded built start (⟨call, sys.machine.pmm, r⟩ :: history)
        ⟨b, sys.pml4, call.reserved sys.machine.pmm r ++ sys.held⟩

/-- Every page has the frame that the newest mapping in `log` gives it. -/
def Follows (sys : ByteSystem) (log : List Mapping) : Prop :=
  (sys.pml4 = none → log = []) ∧
  ∀ root, sys.pml4 = some root → ∀ w,
    sys.machine.tables.pageFrame root w = Mapping.newest log w

section Steps

variable {built : Pmm} (hal : built.Aligned) {sys sys' : ByteSystem} {log : List Mapping}

include hal

/-- A new root maps nothing. -/
theorem Inv.initPml4_pageFrame (h : sys.Inv built) (first : sys.pml4 = none) {root : Word}
    {b : ByteMachine} (run : Flat.initPml4 sys.machine = .ok (root, b)) (hne : root ≠ null)
    (w : Word) : b.tables.pageFrame root w = none := by
  have hrel := initPml4_shows (h.shows hal)
  rw [run] at hrel
  obtain ⟨⟨root', s⟩, hcall, rfl, _, hshows⟩ := hrel.of_ok_left
  have hafter := System.Inv.anyStep h (.step (.initPml4 first hcall))
  rw [if_neg hne] at hafter
  rcases initPml4_cases h.pmm h.frames (System.Inv.machine_null_not_free h) hcall with
    ⟨hnull, _⟩ | ⟨_, _, _, htable, _⟩
  · exact absurd hnull hne
  have hnone : s.tableAt root (path 1 w) = none := by
    by_contra hsome
    obtain ⟨a, ha⟩ := Option.ne_none_iff_exists'.mp hsome
    exact absurd ((htable _ a).mp ha).1 (by simp [path])
  have hsame : s.SameLeaves root w b.tables := .of_tables (Inv.entry_eq hal hafter hshows rfl) w
  exact hsame.pageFrame_eq.trans (Machine.pageFrame_of_tableAt (by decide) hnone)

/-- A step that is no call on the tree maps nothing. -/
theorem Follows.other {act : Action} (hfollows : sys.Follows log) (h : sys.Inv built)
    (hstep : Step built sys act sys') (hno : ∀ call, act ≠ .table call) : sys'.Follows log := by
  obtain ⟨hnone, hsome⟩ := hfollows
  cases hroot : sys.pml4 with
  | some root =>
      have hleaves : ∀ w, sys'.pml4 = some root ∧
          sys.machine.tables.SameLeaves root w sys'.machine.tables := fun w =>
        h.sameLeaves hal ⟨act, hstep, fun call heq => absurd heq (hno call)⟩ hroot
      obtain ⟨hroot', _⟩ := hleaves root
      refine ⟨fun hnull => ?_, fun root' heq w => ?_⟩
      · rw [hroot'] at hnull
        cases hnull
      · cases hroot'.symm.trans heq
        rw [(hleaves w).2.pageFrame_eq, hsome root hroot]
  | none =>
      rw [hnone hroot]
      refine ⟨fun _ => rfl, fun root heq w => ?_⟩
      cases hstep with
      | pmm call allowed run => cases hroot.symm.trans heq
      | write x b owned => cases hroot.symm.trans heq
      | table pml4 call run => cases hroot.symm.trans pml4
      | initPml4 first run =>
          rename_i root' b
          have hif : (if root' = null then none else some root') = some root := heq
          split at hif
          · cases hif
          · rename_i hne
            cases hif
            exact h.initPml4_pageFrame hal first run hne w

/-- A call on the tree adds one mapping. -/
theorem Follows.table (hfollows : sys.Follows log) (h : sys.Inv built) {root : Word}
    (hroot : sys.pml4 = some root) {call : TableCall} (htidy : call.Tidy) {fuel : Nat} {r : Int}
    {b : ByteMachine} (run : call.runFlat fuel sys.machine root = .ok (r, b)) :
    ∃ m, Request.Made ⟨call, sys.machine.pmm, r⟩ m ∧
      Follows ⟨b, sys.pml4, call.reserved sys.machine.pmm r ++ sys.held⟩ (m :: log) := by
  obtain ⟨s, hcall, hshows⟩ := h.table_shows hal hroot run
  obtain ⟨m, hmade, hgains⟩ := call.gains (System.Inv.tree h root hroot) htidy hcall
  have hafter := System.Inv.tableCall h hroot hcall
  refine ⟨m, hmade, fun hnone => ?_, fun root' hroot' w => ?_⟩
  · cases hroot.symm.trans hnone
  · cases hroot.symm.trans hroot'
    have hsame : s.SameLeaves root w b.tables := .of_tables (Inv.entry_eq hal hafter hshows hroot) w
    exact hsame.pageFrame_eq.trans (hgains.newest (hfollows.2 root hroot) w)

end Steps

end ByteSystem

theorem sixPagesBytes_recorded :
    ByteSystem.Recorded (buildPmm oneBlock sixPagesMap.descs)
      ⟨⟨buildPmm oneBlock sixPagesMap.descs, fun _ => 0#8⟩, none, []⟩ [] sixPagesBytes := by
  unfold sixPagesBytes
  cases h : Flat.initPml4 ⟨buildPmm oneBlock sixPagesMap.descs, fun _ => 0#8⟩ with
  | error e => exact .start
  | ok result => exact .other .start (.initPml4 rfl h) fun call heq => by cases heq

/-- The calls that map page 0x5000, first to frame 0x7000 and then to 0x8000. -/
def remapRequests : List Request :=
  [⟨.mapPage 0x5000#64 0x8000#64 readWriteBit, oneMappedMachine.pmm, 0⟩,
    ⟨.mapPage 0x5000#64 0x7000#64 readWriteBit, sixPagesBytes.machine.pmm, 0⟩]

end EchOS
