/-
  EchOS.Kernel.Memory.PointUpdates

  `map_page` and `map_large_page` as updates of the address translation: the page,
  or the 2 MiB region, that was asked for, and nothing else; nothing at all when
  the call fails.
-/
import EchOS.Kernel.Memory.System

namespace EchOS

section Updates

variable {root : Word} {s s' : Machine}

theorem translate_eq_of_pageFrame {w : Word} (h : s'.pageFrame root w = s.pageFrame root w) :
    translate s'.mem root w = translate s.mem root w := by
  rw [translate_eq, translate_eq, h]

theorem translate_of_pageFrame {w x : Word} (h : s.pageFrame root w = some x) :
    translate s.mem root w = some (x + (w &&& 0xFFF#64)) := by
  rw [translate_eq, h]
  rfl

/-- `map_page` on an aligned page: what it returns and what translates where. -/
theorem mapPage_update (hinv : s.TreeInv root) {v p flags : Word} (hv : 4096 ∣ v.toNat)
    (hflags : PlainFlags flags) :
    ∃ r s', mapPage s root v p flags = .ok (r, s') ∧ (r = 0 ∨ r = -1) ∧
      (r = 0 → ∀ w, s'.pageFrame root w
        = if path 4 w = path 4 v then some (p &&& physAddrMask) else s.pageFrame root w) ∧
      (r = -1 → s'.pageFrame root = s.pageFrame root) := by
  have hoff : v &&& 0xFFF#64 = 0#64 := by
    apply BitVec.eq_of_toNat_eq
    rw [and_pageOffset_toNat]
    exact Nat.mod_eq_zero_of_dvd hv
  rcases mapPage_cases hinv v flags p hflags with
    ⟨b, s', hcov, hcall, _, hleaf⟩ | ⟨s', _, hcall, hstarve⟩ | ⟨s', hunc, hcall, _, hleaf⟩
  -- under a 2 MiB page the call changes nothing and compares the frames
  · have hframe := Machine.pageFrame_eq_of_leafAt hleaf
    rw [hoff, BitVec.add_zero] at hcall
    by_cases hsame : Machine.largeFrame b v = p &&& physAddrMask
    · rw [if_pos hsame] at hcall
      refine ⟨0, s', hcall, .inl rfl, fun _ w => ?_, fun h => absurd h (by decide)⟩
      rw [hframe]
      by_cases hw : path 4 w = path 4 v
      · rw [if_pos hw, Machine.pageFrame_congr hw, Machine.pageFrame_of_large hcov, hsame]
      · rw [if_neg hw]
    · rw [if_neg hsame] at hcall
      exact ⟨-1, s', hcall, .inr rfl, fun h => absurd h (by decide), fun _ => hframe⟩
  -- without a frame for a table nothing is mapped
  · exact ⟨-1, s', hcall, .inr rfl, fun h => absurd h (by decide),
      fun _ => Machine.pageFrame_eq_of_leafAt hstarve.leafAt_eq⟩
  · exact ⟨0, s', hcall, .inl rfl, fun _ => Machine.pageFrame_update_small hleaf hunc,
      fun h => absurd h (by decide)⟩

/-- The same for `map_large_page` and its region. -/
theorem mapLargePage_update (hinv : s.TreeInv root) {v p flags : Word}
    (hflags : PlainFlags flags) :
    ∃ r s', mapLargePage s root v p flags = .ok (r, s') ∧ (r = 0 ∨ r = -1) ∧
      (r = 0 → ∀ w, s'.pageFrame root w = if path 3 w = path 3 v
        then some (Machine.largeFrame (p &&& physAddrMask) w) else s.pageFrame root w) ∧
      (r = -1 → s'.pageFrame root = s.pageFrame root) := by
  rcases mapLargePage_cases hinv v flags p hflags with
    ⟨s', _, hcall, _, hleaf⟩ | ⟨s', _, hcall, hstarve⟩ | ⟨s', _, hcall, _, hleaf⟩
  · exact ⟨-1, s', hcall, .inr rfl, fun h => absurd h (by decide),
      fun _ => Machine.pageFrame_eq_of_leafAt hleaf⟩
  · exact ⟨-1, s', hcall, .inr rfl, fun h => absurd h (by decide),
      fun _ => Machine.pageFrame_eq_of_leafAt hstarve.leafAt_eq⟩
  · exact ⟨0, s', hcall, .inl rfl, fun _ => Machine.pageFrame_update_large hleaf,
      fun h => absurd h (by decide)⟩

/-- Inside a 2 MiB page the frame and the offset add up to the region's offset. -/
theorem largeFrame_add_offset {p : Word} (hp : 2 ^ 21 ∣ p.toNat) (hlt : p.toNat < 2 ^ 52)
    (w : Word) :
    Machine.largeFrame (p &&& physAddrMask) w + (w &&& 0xFFF#64)
      = p + (w &&& (largePageSize - 1#64)) := by
  have hmask := and_physAddrMask_of_aligned (Nat.dvd_trans (by decide : 4096 ∣ 2 ^ 21) hp) hlt
  rw [hmask]
  apply BitVec.eq_of_toNat_eq
  have h1 := Machine.largeFrame_toNat p w
  have h2 := and_pageOffset_toNat w
  have h3 := and_largeOffset_toNat w
  rw [toNat_add_of_lt (by omega), toNat_add_of_lt (by omega), h1, h2, h3]
  omega

end Updates

/-- In memory at 2^52 `map_page` returns 0 and maps nothing: the tables it linked
    are not where the entries point. -/
theorem point_updates_fail_high :
    System.Reachable oneBlock highMap (bootSystem oneBlock highMap) ∧
    (bootSystem oneBlock highMap).pml4 = some 0x10000000000000#64 ∧
    mapPage (bootSystem oneBlock highMap).machine 0x10000000000000#64 0#64 0x5000#64 readWriteBit
      = .ok (0, highMapped) ∧
    translate highMapped.mem 0x10000000000000#64 0#64 = none :=
  ⟨bootSystem_reachable oneBlock highMap, rfl, rfl, by decide⟩

/-- **Exact point updates of the translation.**  In every reachable state, for
    aligned addresses, a physical address that fits an entry and flags outside the
    address field: both functions return; with 0 exactly the requested page or
    2 MiB region is mapped and every other page translates as before; with -1
    every page does. -/
theorem point_updates {storage : PmmStorage} {mmap : PhysicalMap} {sys : System}
    (h : System.Reachable storage mmap.toMemoryMap sys) {root : Word}
    (hroot : sys.pml4 = some root) {vaddr paddr flags : Word} (hv : 4096 ∣ vaddr.toNat)
    (hp : 4096 ∣ paddr.toNat) (hlt : paddr.toNat < 2 ^ 52) (hflags : PlainFlags flags) :
    (∃ r s, mapPage sys.machine root vaddr paddr flags = .ok (r, s) ∧ (r = 0 ∨ r = -1) ∧
      (r = 0 → ∀ w, pageNumber w = pageNumber vaddr →
        translate s.mem root w = some (paddr + (w &&& 0xFFF#64))) ∧
      (r = 0 → ∀ w, pageNumber w ≠ pageNumber vaddr →
        translate s.mem root w = translate sys.machine.mem root w) ∧
      (r = -1 → ∀ w, translate s.mem root w = translate sys.machine.mem root w)) ∧
    (2 ^ 21 ∣ paddr.toNat →
      ∃ r s, mapLargePage sys.machine root vaddr paddr flags = .ok (r, s) ∧ (r = 0 ∨ r = -1) ∧
      (r = 0 → ∀ w, regionNumber w = regionNumber vaddr →
        translate s.mem root w = some (paddr + (w &&& (largePageSize - 1#64)))) ∧
      (r = 0 → ∀ w, regionNumber w ≠ regionNumber vaddr →
        translate s.mem root w = translate sys.machine.mem root w) ∧
      (r = -1 → ∀ w, translate s.mem root w = translate sys.machine.mem root w)) := by
  have htree := h.inv.tree root hroot
  have hmask := and_physAddrMask_of_aligned hp hlt
  constructor
  · obtain ⟨r, s, hcall, hr, hzero, hfail⟩ := mapPage_update htree hv hflags
    refine ⟨r, s, hcall, hr, fun h0 w hw => ?_, fun h0 w hw => ?_, fun h1 w => ?_⟩
    · have hframe := hzero h0 w
      rw [if_pos (path_four_eq_iff.mpr hw), hmask] at hframe
      exact translate_of_pageFrame hframe
    · have hframe := hzero h0 w
      rw [if_neg (fun heq => hw (path_four_eq_iff.mp heq))] at hframe
      exact translate_eq_of_pageFrame hframe
    · exact translate_eq_of_pageFrame (congrFun (hfail h1) w)
  · intro hlarge
    obtain ⟨r, s, hcall, hr, hzero, hfail⟩ :=
      mapLargePage_update htree hflags
    refine ⟨r, s, hcall, hr, fun h0 w hw => ?_, fun h0 w hw => ?_, fun h1 w => ?_⟩
    · have hframe := hzero h0 w
      rw [if_pos (path_three_eq_iff.mpr hw)] at hframe
      rw [translate_of_pageFrame hframe, largeFrame_add_offset hlarge hlt]
    · have hframe := hzero h0 w
      rw [if_neg (fun heq => hw (path_three_eq_iff.mp heq))] at hframe
      exact translate_eq_of_pageFrame hframe
    · exact translate_eq_of_pageFrame (congrFun (hfail h1) w)

/-- Mapping page 0x5000 to frame 0x7000 in the six-page system. -/
theorem point_updates_sixPages :
    ∃ r s, mapPage sixPagesSystem.machine 0x1000#64 0x5000#64 0x7000#64 readWriteBit = .ok (r, s) ∧
      (r = 0 → ∀ w, pageNumber w = pageNumber 0x5000#64 →
        translate s.mem 0x1000#64 w = some (0x7000#64 + (w &&& 0xFFF#64))) := by
  have hv : 4096 ∣ (0x5000#64 : Word).toNat := by decide
  have hp : 4096 ∣ (0x7000#64 : Word).toNat := by decide
  obtain ⟨⟨r, s, hcall, _, hzero, _⟩, _⟩ := point_updates sixPagesSystem_reachable
    sixPagesSystem_pml4 hv hp (by decide) plainFlags_readWriteBit
  exact ⟨r, s, hcall, hzero⟩

end EchOS
