/-
  EchOS.Kernel.Memory.MapTurn

  One turn of `map_range`'s loop, as a relation.

  `Turn` lists what a turn can do: write a 2 MiB leaf, find the page mapped as
  asked, write a 4 KiB leaf, or end the loop with -1 because the page lies under a
  different 2 MiB page or because the pmm has too few frames.  `EntryTurn` says the
  same entry by entry, and for any flags.  `turn_cases` proves that the loop's body
  takes such a turn; everything about the loop goes through it or `loop_turn`, and
  `loop_induct` is its induction principle.
-/
import EchOS.Kernel.Memory.MapPage

namespace EchOS

/-! ## Frames after a leaf is written -/

namespace Machine

section PageFrame

variable {root v : Word} {s s' : Machine}

theorem pageFrame_eq_of_leafAt (h : s'.leafAt root = s.leafAt root) :
    s'.pageFrame root = s.pageFrame root := by
  funext w
  unfold pageFrame
  rw [h]

/-- A 4 KiB leaf shows at its own page only. -/
theorem pageFrame_update_small {x : Word}
    (h : s'.leafAt root = Function.update (s.leafAt root) (path 4 v) (some x))
    (hnone : s.leafAt root (path 3 v) = none) (w : Word) :
    s'.pageFrame root w = if path 4 w = path 4 v then some x else s.pageFrame root w := by
  have hne : path 3 w ≠ path 4 v := path_ne_of_length_ne (by decide)
  unfold pageFrame
  rw [h, Function.update_of_ne hne, Function.update_apply]
  by_cases heq : path 4 w = path 4 v
  · rw [path_three_eq_of_path_four_eq heq, hnone, if_pos heq]
  · rw [if_neg heq, if_neg heq]

/-- A 2 MiB leaf shows at the pages of its region only. -/
theorem pageFrame_update_large {x : Word}
    (h : s'.leafAt root = Function.update (s.leafAt root) (path 3 v) (some x)) (w : Word) :
    s'.pageFrame root w
      = if path 3 w = path 3 v then some (largeFrame x w) else s.pageFrame root w := by
  have hne : path 4 w ≠ path 3 v := path_ne_of_length_ne (by decide)
  unfold pageFrame
  rw [h, Function.update_of_ne hne, Function.update_apply]
  by_cases heq : path 3 w = path 3 v
  · rw [if_pos heq, if_pos heq]
  · rw [if_neg heq, if_neg heq]

end PageFrame

/-! ## The turns -/

/-- What one turn of the loop can do at the pages `v` and `p`: go on some pages
    further, or end the loop. -/
inductive Turn (flags root : Word) (s : Machine) (v p stop : Word) : Option Nat → Machine → Prop
  | large {s' : Machine} (fits : LargeFits v p stop)
      (noTable : s.tableAt root (path 3 v) = none)
      (grows : s.Grows flags root (s.missing root (tablePaths 2 v)) s')
      (leaf : s'.leafAt root
        = Function.update (s.leafAt root) (path 3 v) (some (p &&& physAddrMask))) :
      Turn flags root s v p stop (some 512) s'
  | kept {b : Word} {s' : Machine}
      (notLarge : ¬ (LargeFits v p stop ∧ s.tableAt root (path 3 v) = none))
      (covered : s.leafAt root (path 3 v) = some b)
      (same : largeFrame b v = p &&& physAddrMask) (grows : s.Grows flags root ∅ s')
      (leaf : s'.leafAt root = s.leafAt root) : Turn flags root s v p stop (some 1) s'
  | small {s' : Machine}
      (notLarge : ¬ (LargeFits v p stop ∧ s.tableAt root (path 3 v) = none))
      (uncovered : s.leafAt root (path 3 v) = none)
      (grows : s.Grows flags root (s.missing root (tablePaths 3 v)) s')
      (leaf : s'.leafAt root
        = Function.update (s.leafAt root) (path 4 v) (some (p &&& physAddrMask))) :
      Turn flags root s v p stop (some 1) s'
  | clash {b : Word} {s' : Machine}
      (notLarge : ¬ (LargeFits v p stop ∧ s.tableAt root (path 3 v) = none))
      (covered : s.leafAt root (path 3 v) = some b)
      (differs : largeFrame b v ≠ p &&& physAddrMask) (grows : s.Grows flags root ∅ s')
      (leaf : s'.leafAt root = s.leafAt root) : Turn flags root s v p stop none s'
  | starved {depth : Nat} {new : Finset (List Index)} {s' : Machine}
      (depth_eq : depth = if LargeFits v p stop ∧ s.tableAt root (path 3 v) = none then 2 else 3)
      (uncovered : s.leafAt root (path 3 v) = none)
      (short : s.pmm.freeCount < (s.missing root (tablePaths depth v)).card)
      (grows : s.Grows flags root new s')
      (leaf : s'.leafAt root = s.leafAt root) : Turn flags root s v p stop none s'

/-- Every turn keeps the invariant. -/
theorem Turn.grows {flags root v p stop : Word} {s s' : Machine} {advance : Option Nat}
    (h : Turn flags root s v p stop advance s') : ∃ new, s.Grows flags root new s' := by
  cases h with
  | large _ _ grows _ => exact ⟨_, grows⟩
  | kept _ _ _ grows _ => exact ⟨_, grows⟩
  | small _ _ grows _ => exact ⟨_, grows⟩
  | clash _ _ _ grows _ => exact ⟨_, grows⟩
  | starved _ _ _ grows _ => exact ⟨_, grows⟩

/-- The same with whole leaf entries, for any flags. -/
inductive EntryTurn (flags root : Word) (s : Machine) (v p stop : Word) :
    Option Nat → Machine → Prop
  | large {s' : Machine} (fits : LargeFits v p stop)
      (noTable : s.tableAt root (path 3 v) = none)
      (rewrites : s.Rewrites flags root (s.missing root (tablePaths 2 v))
        (Function.update (s.leafEntryAt root) (path 3 v) (some (largeEntry p flags))) s') :
      EntryTurn flags root s v p stop (some 512) s'
  | kept {e : Word} {s' : Machine}
      (notLarge : ¬ (LargeFits v p stop ∧ s.tableAt root (path 3 v) = none))
      (covered : s.leafEntryAt root (path 3 v) = some e)
      (same : largeTarget e v = p &&& physAddrMask)
      (rewrites : s.Rewrites flags root ∅ (s.leafEntryAt root) s') :
      EntryTurn flags root s v p stop (some 1) s'
  | small {s' : Machine}
      (notLarge : ¬ (LargeFits v p stop ∧ s.tableAt root (path 3 v) = none))
      (uncovered : s.leafEntryAt root (path 3 v) = none)
      (rewrites : s.Rewrites flags root (s.missing root (tablePaths 3 v))
        (Function.update (s.leafEntryAt root) (path 4 v)
          (some (initPtEntry p (flags ||| presentBit)))) s') :
      EntryTurn flags root s v p stop (some 1) s'
  | clash {e : Word} {s' : Machine}
      (notLarge : ¬ (LargeFits v p stop ∧ s.tableAt root (path 3 v) = none))
      (covered : s.leafEntryAt root (path 3 v) = some e)
      (differs : largeTarget e v ≠ p &&& physAddrMask)
      (rewrites : s.Rewrites flags root ∅ (s.leafEntryAt root) s') :
      EntryTurn flags root s v p stop none s'
  | starved {depth : Nat} {new : Finset (List Index)} {s' : Machine}
      (depth_eq : depth = if LargeFits v p stop ∧ s.tableAt root (path 3 v) = none then 2 else 3)
      (uncovered : s.leafEntryAt root (path 3 v) = none)
      (short : s.pmm.freeCount < (s.missing root (tablePaths depth v)).card)
      (rewrites : s.Rewrites flags root new (s.leafEntryAt root) s') :
      EntryTurn flags root s v p stop none s'

/-- Every turn grows the tree and leaves the permissions to the leaves. -/
theorem EntryTurn.rewrites {flags root v p stop : Word} {s s' : Machine} {advance : Option Nat}
    (h : EntryTurn flags root s v p stop advance s') :
    ∃ new leaves, s.Rewrites flags root new leaves s' := by
  cases h with
  | large _ _ rewrites => exact ⟨_, _, rewrites⟩
  | kept _ _ _ rewrites => exact ⟨_, _, rewrites⟩
  | small _ _ rewrites => exact ⟨_, _, rewrites⟩
  | clash _ _ _ rewrites => exact ⟨_, _, rewrites⟩
  | starved _ _ _ rewrites => exact ⟨_, _, rewrites⟩

/-- A 2 MiB page's target at the start of a page is the page's frame. -/
theorem largeTarget_of_aligned {v : Word} (hv : 4096 ∣ v.toNat) (e : Word) :
    largeTarget e v = largeFrame (e &&& physAddrMask) v := by
  have hoff : v &&& 0xFFF#64 = 0#64 := by
    apply BitVec.eq_of_toNat_eq
    rw [and_pageOffset_toNat]
    exact Nat.mod_eq_zero_of_dvd hv
  rw [largeTarget_eq, hoff, BitVec.add_zero]

/-- With flags outside the address field the turn is one of the frames. -/
theorem EntryTurn.turn {flags root v p stop : Word} {s s' : Machine} {advance : Option Nat}
    (h : EntryTurn flags root s v p stop advance s') (hflags : PlainFlags flags)
    (hv : 4096 ∣ v.toNat) : Turn flags root s v p stop advance s' := by
  have hleaf : ∀ {e : Word}, s.leafEntryAt root (path 3 v) = some e →
      s.leafAt root (path 3 v) = some (e &&& physAddrMask) := by
    intro e he
    rw [leafAt_eq, he]
    rfl
  cases h with
  | large fits noTable rewrites =>
      have hupdate := leafAt_of_update rewrites.leaves_eq
      rw [largeEntry_address hflags] at hupdate
      exact .large fits noTable rewrites.grows hupdate
  | kept notLarge covered same rewrites =>
      rw [largeTarget_of_aligned hv] at same
      exact .kept notLarge (hleaf covered) same rewrites.grows (leafAt_of_same rewrites.leaves_eq)
  | small notLarge uncovered rewrites =>
      have hupdate := leafAt_of_update rewrites.leaves_eq
      rw [initPtEntry_address hflags] at hupdate
      exact .small notLarge (leafAt_eq_none_iff.mpr uncovered) rewrites.grows hupdate
  | clash notLarge covered differs rewrites =>
      rw [largeTarget_of_aligned hv] at differs
      exact .clash notLarge (hleaf covered) differs rewrites.grows
        (leafAt_of_same rewrites.leaves_eq)
  | starved depth_eq uncovered short rewrites =>
      exact .starved depth_eq (leafAt_eq_none_iff.mpr uncovered) short rewrites.grows
        (leafAt_of_same rewrites.leaves_eq)

end Machine

/-! ## The loop takes such turns -/

/-- The page `k` pages after `a`. -/
abbrev nthPage (a : Word) (k : Nat) : Word := Pmm.runFrame a k

theorem nthPage_one (a : Word) : nthPage a 1 = a + frameSize := by
  unfold nthPage Pmm.runFrame
  simp

theorem nthPage_large (a : Word) : nthPage a 512 = a + largePageSize := by
  unfold nthPage Pmm.runFrame
  congr 1

theorem nthPage_zero (a : Word) : nthPage a 0 = a := by
  unfold nthPage Pmm.runFrame
  simp

theorem nthPage_add (a : Word) (k n : Nat) : nthPage (nthPage a k) n = nthPage a (k + n) := by
  unfold nthPage Pmm.runFrame
  rw [BitVec.ofNat_add, BitVec.add_mul, BitVec.add_assoc]

theorem nthPage_toNat {a : Word} {k : Nat} (h : a.toNat + k * 4096 < 2 ^ 64) :
    (nthPage a k).toNat = a.toNat + k * 4096 := by
  have hk : (BitVec.ofNat 64 k).toNat = k := toNat_ofNat_of_lt (by omega)
  have hmul : (BitVec.ofNat 64 k * frameSize).toNat = k * 4096 := by
    rw [toNat_mul_of_lt, hk, frameSize_toNat]
    rw [hk, frameSize_toNat]
    omega
  unfold nthPage Pmm.runFrame
  rw [toNat_add_of_lt (by omega), hmul]

theorem nthPage_aligned {v : Word} (hv : 4096 ∣ v.toNat) (n : Nat) :
    4096 ∣ (nthPage v n).toNat := by
  unfold nthPage Pmm.runFrame
  rw [BitVec.toNat_add, BitVec.toNat_mul, frameSize_toNat]
  omega

/-- The body of `map_range`'s loop: by how many pages it moves on, or `none` when it
    returns -1. -/
def mapRange.turn (s : Machine) (pml4 vaddr paddr «end» flags : Word) :
    Except Abort (Option Nat × Machine) := do
  let (large, s) ← mapRange.tryLarge s pml4 vaddr paddr «end» flags
  if large = 0 then return (some 512, s)
  else do
    let (small, s) ← mapPage s pml4 vaddr paddr flags
    if small ≠ 0 then return (none, s)
    else return (some 1, s)

/-- How the loop goes on after a turn. -/
def afterTurn (pml4 stop flags : Word) (fuel : Nat) (s : Machine) (v p : Word) :
    Option Nat → Except Abort (Int × Machine)
  | none => .ok (-1, s)
  | some n => mapRange.loop pml4 stop flags fuel s (nthPage v n) (nthPage p n)

section Turns

variable {flags root stop : Word} {s s1 : Machine}

/-- The loop is its body, over and over. -/
theorem loop_succ {fuel : Nat} {v p : Word} (hlt : v < stop) :
    mapRange.loop root stop flags (fuel + 1) s v p
      = mapRange.turn s root v p stop flags >>= fun x =>
          afterTurn root stop flags fuel x.2 v p x.1 := by
  rw [mapRange.loop, if_pos hlt, mapRange.turn, bind_assoc]
  refine bind_congr fun ⟨large, s1⟩ => ?_
  show (if large = 0 then _ else _) = (if large = 0 then _ else _) >>= _
  by_cases hlarge : large = 0
  · rw [if_pos hlarge, if_pos hlarge, pure_bind, ← nthPage_large, ← nthPage_large]
    rfl
  · rw [if_neg hlarge, if_neg hlarge, bind_assoc]
    refine bind_congr fun ⟨small, s2⟩ => ?_
    show (if small ≠ 0 then _ else _) = (if small ≠ 0 then _ else _) >>= _
    by_cases hsmall : small ≠ 0
    · rw [if_pos hsmall, if_pos hsmall, pure_bind]
      rfl
    · rw [if_neg hsmall, if_neg hsmall, pure_bind, ← nthPage_one, ← nthPage_one]
      rfl

theorem loop_of_turn {fuel : Nat} {v p : Word} {s' : Machine} {advance : Option Nat}
    (hlt : v < stop) (h : mapRange.turn s root v p stop flags = .ok (advance, s')) :
    mapRange.loop root stop flags (fuel + 1) s v p
      = afterTurn root stop flags fuel s' v p advance := by
  rw [loop_succ hlt, h]
  rfl

/-- A turn whose 2 MiB attempt failed, or was not made. -/
theorem turn_of_small {v p : Word} {s' : Machine} {r : Int} {advance : Option Nat}
    (hlarge : mapRange.tryLarge s root v p stop flags = .ok (-1, s1))
    (hsmall : mapPage s1 root v p flags = .ok (r, s'))
    (hr : r = 0 ∧ advance = some 1 ∨ r = -1 ∧ advance = none) :
    mapRange.turn s root v p stop flags = .ok (advance, s') := by
  have hno : ¬ (-1 : Int) = 0 := by decide
  unfold mapRange.turn
  rw [hlarge]
  simp only [bind, Except.bind, if_neg hno, hsmall]
  rcases hr with ⟨rfl, rfl⟩ | ⟨rfl, rfl⟩ <;> rfl

/-- The 4 KiB half of a turn, with the tables touched but nothing else changed
    since the turn began. -/
theorem smallTurn (hinv : s.TreeInv root) {v p : Word}
    (h : s.Rewrites flags root ∅ (s.leafEntryAt root) s1)
    (hsmall : ¬ (LargeFits v p stop ∧ s.tableAt root (path 3 v) = none)) :
    ∃ r s' advance, mapPage s1 root v p flags = .ok (r, s') ∧
      s.EntryTurn flags root v p stop advance s' ∧
      (r = 0 ∧ advance = some 1 ∨ r = -1 ∧ advance = none) := by
  have hmissing : ∀ paths, s1.missing root paths = s.missing root paths := fun paths => by
    rw [h.grows.missing_eq, Finset.sdiff_empty]
  obtain ⟨r, s', hcall, houtcome⟩ := mapPage_outcome h.grows.inv v flags p
  cases houtcome with
  | covered leaf result opened =>
      rename_i e
      rw [h.leaves_eq] at leaf
      have hopened := opened.rewrites
      -- all tables above a 2 MiB page exist, so none was allocated
      have hexists : s.leafAt root (path 3 v) = some (e &&& physAddrMask) := by
        rw [Machine.leafAt_eq, leaf]
        rfl
      rw [hmissing, Machine.missing_tablePaths_eq_empty (Machine.tableAt_isSome_of_leafAt hexists),
        h.leaves_eq] at hopened
      have htotal := h.trans hopened
      rw [Finset.empty_union] at htotal
      by_cases hsame : largeTarget e v = p &&& physAddrMask
      · rw [if_pos hsame] at result
        exact ⟨r, s', some 1, hcall, .kept hsmall leaf hsame htotal, .inl ⟨result, rfl⟩⟩
      · rw [if_neg hsame] at result
        exact ⟨r, s', none, hcall, .clash hsmall leaf hsame htotal, .inr ⟨result, rfl⟩⟩
  | starved uncovered exhausted =>
      obtain ⟨new, hrewrites⟩ := exhausted.rewrites
      have hshort := exhausted.starves.card_lt h.grows.inv.pmm
      have hcount : s1.pmm.freeCount = s.pmm.freeCount := h.grows.freeCount_add hinv.pmm
      have htotal := h.trans hrewrites
      rw [hmissing, hcount] at hshort
      rw [h.leaves_eq] at uncovered htotal
      exact ⟨-1, s', none, hcall, .starved (if_neg hsmall).symm uncovered hshort htotal,
        .inr ⟨rfl, rfl⟩⟩
  | written uncovered rewrites =>
      have htotal := h.trans rewrites
      rw [Finset.empty_union, hmissing] at htotal
      rw [h.leaves_eq] at uncovered htotal
      exact ⟨0, s', some 1, hcall, .small hsmall uncovered htotal, .inl ⟨rfl, rfl⟩⟩

/-- After a failed 2 MiB attempt for want of frames, the 4 KiB one fails too. -/
theorem starvedTurn (hinv : s.TreeInv root) {v p : Word}
    (hlarge : LargeFits v p stop ∧ s.tableAt root (path 3 v) = none)
    (h : s.Exhausted flags root v 2 s1) :
    ∃ s', mapPage s1 root v p flags = .ok (-1, s') ∧ s.EntryTurn flags root v p stop none s' := by
  have hshort := h.starves.card_lt hinv.pmm
  have huncovered := h.leafEntryAt_eq_none hinv
  obtain ⟨d, hd, hopened, hnone⟩ := h.opened
  have hsame := hopened.rewrites.leaves_eq
  obtain ⟨r, s', hcall, houtcome⟩ := mapPage_outcome hopened.rewrites.grows.inv v flags p
  cases houtcome with
  | covered leaf _ _ =>
      rw [hsame, huncovered] at leaf
      cases leaf
  | starved _ exhausted =>
      obtain ⟨new, hrewrites⟩ := exhausted.rewrites
      have htotal := hopened.rewrites.trans hrewrites
      rw [hsame] at htotal
      exact ⟨s', hcall, .starved (if_pos hlarge).symm huncovered hshort htotal⟩
  | written _ rewrites =>
      -- it would need at least one more frame
      have hcount := rewrites.grows.freeCount_add hopened.rewrites.grows.inv.pmm
      have hmem : path (d + 1) v ∈ s1.missing root (tablePaths 3 v) :=
        Machine.mem_missing.mpr ⟨mem_tablePaths.mpr ⟨d, by omega, rfl⟩, hnone⟩
      have hpos := Finset.card_pos.mpr ⟨_, hmem⟩
      have hempty := h.empty
      omega

/-- The body of the loop takes a turn. -/
theorem turn_cases (hinv : s.TreeInv root) (v p : Word) :
    ∃ advance s', mapRange.turn s root v p stop flags = .ok (advance, s') ∧
      s.EntryTurn flags root v p stop advance s' := by
  by_cases hfits : LargeFits v p stop
  · have htry : mapRange.tryLarge s root v p stop flags = mapLargePage s root v p flags :=
      if_pos hfits
    obtain ⟨r, s1, hcall, houtcome⟩ := mapLargePage_outcome hinv v flags p
    cases houtcome with
    | refused table opened =>
        -- a page table is in the way of the 2 MiB page
        have hopened := opened.rewrites
        rw [Machine.missing_tablePaths_eq_empty (Machine.tableAt_isSome_of_cons table)] at hopened
        obtain ⟨r', s', advance, hsmall, hturn, hr⟩ :=
          smallTurn hinv hopened (fun h : LargeFits v p stop ∧ _ => table h.2)
        exact ⟨advance, s', turn_of_small (htry.trans hcall) hsmall hr, hturn⟩
    | starved noTable exhausted =>
        -- no frame for a table above it
        obtain ⟨s', hsmall, hturn⟩ := starvedTurn hinv ⟨hfits, noTable⟩ exhausted
        exact ⟨none, s', turn_of_small (htry.trans hcall) hsmall (.inr ⟨rfl, rfl⟩), hturn⟩
    | written noTable rewrites =>
        refine ⟨some 512, s1, ?_, .large hfits noTable rewrites⟩
        unfold mapRange.turn
        rw [htry, hcall]
        rfl
  · have htry : mapRange.tryLarge s root v p stop flags = .ok (-1, s) := if_neg hfits
    obtain ⟨r, s', advance, hsmall, hturn, hr⟩ :=
      smallTurn hinv (.refl hinv) (fun h : LargeFits v p stop ∧ _ => hfits h.1)
    exact ⟨advance, s', turn_of_small htry hsmall hr, hturn⟩

/-- One turn of the loop, while `v` is below its end. -/
theorem loop_turn (hinv : s.TreeInv root) (hflags : PlainFlags flags) {v p : Word}
    (hv : 4096 ∣ v.toNat) (hlt : v < stop) :
    ∃ advance s', s.Turn flags root v p stop advance s' ∧ ∀ fuel,
      mapRange.loop root stop flags (fuel + 1) s v p
        = afterTurn root stop flags fuel s' v p advance := by
  obtain ⟨advance, s', hturn, hentries⟩ := turn_cases hinv v p
  exact ⟨advance, s', hentries.turn hflags hv, fun _ => loop_of_turn hlt hturn⟩

end Turns

/-! ## Whole runs of the loop -/

section Runs

variable {flags root stop : Word} {s : Machine}

/-- A run that ends, ends the same way with more fuel. -/
theorem loop_fuel_mono {fuel fuel' : Nat} (hle : fuel ≤ fuel') {v p : Word}
    {x : Int × Machine} (h : mapRange.loop root stop flags fuel s v p = .ok x) :
    mapRange.loop root stop flags fuel' s v p = .ok x := by
  induction fuel generalizing fuel' s v p with
  | zero => cases h
  | succ fuel ih =>
      obtain ⟨fuel', rfl⟩ : ∃ n, fuel' = n + 1 := ⟨fuel' - 1, by omega⟩
      have hle' : fuel ≤ fuel' := by omega
      by_cases hlt : v < stop
      · rw [loop_succ hlt] at h
        obtain ⟨⟨advance, s1⟩, hturn, hrest⟩ := except_bind_ok h
        rw [loop_of_turn hlt hturn]
        -- a turn that goes on leaves the rest to the shorter run
        cases advance with
        | none => exact hrest
        | some n => exact ih hle' hrest
      · rw [mapRange.loop, if_neg hlt] at h ⊢
        exact h

/-- A run with nothing to do. -/
theorem loop_of_not_lt {fuel : Nat} {v p : Word} (hlt : ¬ v < stop) {x : Int × Machine}
    (h : mapRange.loop root stop flags fuel s v p = .ok x) : x = (0, s) := by
  cases fuel with
  | zero => cases h
  | succ fuel =>
      rw [mapRange.loop, if_neg hlt] at h
      cases h
      rfl

/-- What holds before the first turn and is kept by every turn holds at the end: in
    `I` when the loop runs past `stop`, in `J` when a turn ends it. -/
theorem loop_induct {v0 p0 : Word} {I : Nat → Machine → Prop} {J : Machine → Prop}
    (inv : ∀ k s, I k s → s.TreeInv root)
    (more : ∀ k s n s', I k s → nthPage v0 k < stop →
      s.EntryTurn flags root (nthPage v0 k) (nthPage p0 k) stop (some n) s' → I (k + n) s')
    (stops : ∀ k s s', I k s → nthPage v0 k < stop →
      s.EntryTurn flags root (nthPage v0 k) (nthPage p0 k) stop none s' → J s')
    {fuel k : Nat} {r : Int} {s' : Machine} (start : I k s)
    (h : mapRange.loop root stop flags fuel s (nthPage v0 k) (nthPage p0 k) = .ok (r, s')) :
    (r = 0 ∧ ∃ m, I m s' ∧ ¬ nthPage v0 m < stop) ∨ r = -1 ∧ J s' := by
  induction fuel generalizing s k with
  | zero => cases h
  | succ fuel ih =>
      by_cases hlt : nthPage v0 k < stop
      · obtain ⟨advance, s1, hturn, hentries⟩ :
            ∃ advance s1,
              mapRange.turn s root (nthPage v0 k) (nthPage p0 k) stop flags = .ok (advance, s1) ∧
              s.EntryTurn flags root (nthPage v0 k) (nthPage p0 k) stop advance s1 :=
          turn_cases (inv k s start) (nthPage v0 k) (nthPage p0 k)
        rw [loop_of_turn hlt hturn] at h
        cases advance with
        | none =>
            cases h
            exact .inr ⟨rfl, stops k s _ start hlt hentries⟩
        | some n =>
            rw [afterTurn, nthPage_add, nthPage_add] at h
            exact ih (more k s n s1 start hlt hentries) h
      · rw [mapRange.loop, if_neg hlt] at h
        cases h
        exact .inl ⟨rfl, k, start, hlt⟩

/-- Any run of the loop grows the tree, leaves the permissions to the leaves and
    returns 0 or -1. -/
theorem loop_rewrites {fuel : Nat} {v p : Word} (hinv : s.TreeInv root) {r : Int} {s' : Machine}
    (h : mapRange.loop root stop flags fuel s v p = .ok (r, s')) :
    (r = 0 ∨ r = -1) ∧ ∃ new leaves, s.Rewrites flags root new leaves s' := by
  have hone : ∀ s1 advance s2 v' p', (∃ new leaves, s.Rewrites flags root new leaves s1) →
      s1.EntryTurn flags root v' p' stop advance s2 →
      ∃ new leaves, s.Rewrites flags root new leaves s2 := by
    rintro s1 advance s2 v' p' ⟨new, leaves, hsofar⟩ hturn
    obtain ⟨new', leaves', hmore⟩ := hturn.rewrites
    exact ⟨_, _, hsofar.trans hmore⟩
  rw [← nthPage_zero v, ← nthPage_zero p] at h
  rcases loop_induct (I := fun _ s1 => ∃ new leaves, s.Rewrites flags root new leaves s1)
      (J := fun s1 => ∃ new leaves, s.Rewrites flags root new leaves s1)
      (fun _ _ ⟨_, _, h⟩ => h.grows.inv) (fun _ _ _ _ h _ hturn => hone _ _ _ _ _ h hturn)
      (fun _ _ _ h _ hturn => hone _ _ _ _ _ h hturn) ⟨∅, _, .refl hinv⟩ h with
    ⟨rfl, _, hend, _⟩ | ⟨rfl, hend⟩
  · exact ⟨.inl rfl, hend⟩
  · exact ⟨.inr rfl, hend⟩

/-- Any run of the loop keeps the invariant and returns 0 or -1. -/
theorem loop_grows {fuel : Nat} {v p : Word} (hinv : s.TreeInv root) {r : Int} {s' : Machine}
    (h : mapRange.loop root stop flags fuel s v p = .ok (r, s')) :
    (r = 0 ∨ r = -1) ∧ ∃ new, s.Grows flags root new s' := by
  obtain ⟨hr, new, leaves, hrewrites⟩ := loop_rewrites hinv h
  exact ⟨hr, new, hrewrites.grows⟩

end Runs

end EchOS
