import Pmdk.NvMalloc.Sound

/-!
# Room for what was reserved

A small object has a slot of the rounded size. The pages of a large object are counted without its
header, which takes up the first 64 bytes of them, and the chunks of a huge one with it.
-/

namespace Pmdk.NvMalloc

open Extent Transition List

/-! ## The number of chunks -/

def Heap.Inside (h : Heap) : Prop := h.nextChunk ≤ maxNvmChunks

def Stays {α : Type} (r : Except Failure (α × Heap)) : Prop := ∀ a h', r = .ok (a, h') → h'.Inside

section Stays

variable {α β : Type} {h h' : Heap}

theorem stays_error (e : Failure) : Stays (.error e : Except Failure (α × Heap)) :=
  fun _ _ heq => by cases heq

theorem stays_ok (a : α) (h : h'.Inside) : Stays (.ok (a, h')) := by
  intro _ _ heq
  cases heq
  exact h

theorem Stays.bind {r : Except Failure (α × Heap)} {f : α × Heap → Except Failure (β × Heap)}
    (hr : Stays r) (hf : ∀ a h', h'.Inside → Stays (f (a, h'))) : Stays (r >>= f) := by
  cases r with
  | error e => exact stays_error e
  | ok p => exact hf p.1 p.2 (hr p.1 p.2 rfl)

theorem stays_activateMoreChunks (h : Heap) (n : Nat) : Stays (h.activateMoreChunks n) := by
  rw [Heap.activateMoreChunks]
  split
  · exact stays_error _
  · rename_i hle
    split
    · exact stays_error _
    · exact stays_ok _ (Nat.le_of_not_lt hle)

section

variable (hin : h.Inside)

include hin

theorem stays_takeFreeBlock (n : Nat) : Stays (h.takeFreeBlock n) := by
  rw [Heap.takeFreeBlock]
  split
  · exact (stays_activateMoreChunks h 1).bind fun chunk h' hin' => stays_ok _ hin'
  · exact stays_ok _ hin

theorem stays_arenaCreateRun (n : Nat) : Stays (h.arenaCreateRun n) := by
  refine (stays_takeFreeBlock hin 1).bind fun block h' hin' => stays_ok _ ?_
  split
  · exact hin'
  · exact hin'

theorem stays_arenaCreateBlock (n : Nat) : Stays (h.arenaCreateBlock n) := by
  refine (stays_takeFreeBlock hin n).bind fun block h' hin' => ?_
  dsimp only
  split
  · split
    · exact stays_error _
    · exact stays_ok _ hin'
  · exact stays_ok _ hin'

theorem stays_selectRun (n : Nat) : Stays (h.selectRun n) := by
  have hpop : ∀ k bin, Stays (Heap.selectRun.popRun h k bin) := by
    intro k bin
    rw [Heap.selectRun.popRun]
    split
    · exact stays_error _
    · exact stays_ok _ hin
  rw [Heap.selectRun]
  split
  · exact (stays_arenaCreateRun hin n).bind fun page h' hin' => stays_ok _ hin'
  · split
    · split
      · exact hpop _ _
      · exact stays_ok _ hin
    · exact hpop _ _

theorem stays_arenaAllocate (n : Nat) : Stays (h.arenaAllocate n) := by
  rw [Heap.arenaAllocate]
  split
  · exact (stays_selectRun hin _).bind fun page h' hin' => stays_ok _ hin'
  · exact (stays_arenaCreateBlock hin _).bind fun page h' hin' => stays_ok _ hin'

theorem stays_reserveChunks (n : Nat) : Stays (h.reserveChunks n) := by
  rw [Heap.reserveChunks]
  dsimp only
  split
  · exact (stays_activateMoreChunks h _).bind fun chunk h' hin' => stays_ok _ hin'
  · split
    · exact stays_ok _ hin
    · exact stays_ok _ hin

theorem stays_nvmReserve (n : Nat) : Stays (h.nvmReserve n) := by
  rw [Heap.nvmReserve]
  split
  · exact stays_arenaAllocate hin n
  · exact (stays_reserveChunks hin n).bind fun chunk h' hin' => stays_ok _ hin'

end

theorem nextChunk_freeVolatile (h : Heap) (ptr : Nat) : (h.freeVolatile ptr).nextChunk =
    h.nextChunk := by
  rw [Heap.freeVolatile]
  split
  · rfl
  · split
    · rfl
    · split <;> rfl

theorem inside_step {e : Event} (hin : h.Inside) (hstep : step e h = some h') : h'.Inside := by
  cases e with
  | reserve nBytes =>
    simp only [step] at hstep
    split at hstep
    · split at hstep
      · rename_i heq
        cases hstep
        have hin' := stays_nvmReserve hin nBytes _ _ heq
        exact hin'
      · cases hstep
    · cases hstep
  | activate ptr links =>
    simp only [step] at hstep
    split at hstep
    · cases hcall : h.nvmActivate ptr links with
      | error e =>
        rw [hcall] at hstep
        cases hstep
      | ok h₁ =>
        rw [hcall] at hstep
        cases hstep
        rw [Heap.nvmActivate] at hcall
        cases hstores : h.activateStores ptr links with
        | error e =>
          rw [hstores] at hcall
          cases hcall
        | ok stores =>
          rw [hstores] at hcall
          cases hcall
          exact hin
    · cases hstep
  | free ptr links =>
    simp only [step] at hstep
    split at hstep
    · cases hcall : h.nvmFree ptr links with
      | error e =>
        rw [hcall] at hstep
        cases hstep
      | ok h₁ =>
        rw [hcall] at hstep
        cases hstep
        rw [Heap.nvmFree] at hcall
        cases hstores : h.freeStores ptr links with
        | error e =>
          rw [hstores] at hcall
          cases hcall
        | ok stores =>
          rw [hstores] at hcall
          cases hcall
          exact (Nat.le_of_eq (nextChunk_freeVolatile h ptr)).trans hin
    · cases hstep
  | write a v =>
    simp only [step] at hstep
    split at hstep
    · cases hstep
      exact hin
    · cases hstep

theorem inside_run {events : List Event} (hrun : run step events init = some h) : h.Inside :=
  run_invariant (fun _ _ _ _ hin _ hstep => inside_step hin hstep)
    (.of_forall (fun _ _ => trivial) _ _) (Nat.le_of_ble_eq_true rfl) hrun

end Stays

/-! ## What an object is given -/

section Given

variable {h h' : Heap} {L : Layout} {n : Nat}

theorem Inv.freeChunk_le (hinv : Inv h L) (hin : h.Inside) {e : Extent}
    (he : e ∈ h.freeChunks.toList) : e.len ≤ maxNvmChunks := by
  have hmem : e ∈ L.chunkExtents :=
    mem_append_left _ (hinv.freeChunks.mem_iff.mpr he)
  have hpos := hinv.geometry.chunks.pos e hmem
  have hlast : e.start + (e.len - 1) ∈ e.cells := by
    rw [mem_cells]
    omega
  have hlt := hinv.geometry.lt _ (mem_owned.mpr (.inl ⟨e, hmem, hlast⟩))
  have hnext : h.nextChunk ≤ maxNvmChunks := hin
  omega

/-- The chunks of a huge object, as its header has them, are those that were computed unless their
number does not fit 32 bits. -/
theorem Inv.hugeSize (hinv : Inv h L) (hin : h.Inside) {chunk : Nat}
    (hok : h.reserveChunks n = .ok (chunk, h')) :
    h'.nvm.mem (addr (chunkPage chunk) offSize) ≤ maxNvmChunks ∧
      (chunksFor n < 2 ^ 32 → h'.nvm.mem (addr (chunkPage chunk) offSize) = chunksFor n) := by
  have hmax : maxNvmChunks = 50 := by decide
  rw [Heap.reserveChunks] at hok
  dsimp only at hok
  rw [← chunksFor] at hok
  generalize chunksFor n = k at hok ⊢
  split at hok
  · rw [Heap.nvmReserveHuge, Heap.activateMoreChunks] at hok
    split at hok
    · cases hok
    · rename_i hle
      split at hok
      · cases hok
      · have hmod : k % 2 ^ 32 = k := Nat.mod_eq_of_lt (by omega)
        simp only [bind, Except.bind, pure, Except.pure, Except.ok.injEq, Prod.mk.injEq] at hok
        obtain ⟨rfl, rfl⟩ := hok
        have hsize : (((({ h with
            nvm := { h.nvm with mem := prefault h.nvm.mem h.nextChunk k }
            nextChunk := h.nextChunk + k } : Heap).put (addr (chunkPage h.nextChunk) 0)
              (usageHuge ||| stateInitializing)).put (addr (chunkPage h.nextChunk) offSize)
                (k % 2 ^ 32)).clearOn (chunkPage h.nextChunk)).nvm.mem
              (addr (chunkPage h.nextChunk) offSize) = k := by
          rw [hmod]
          simp [Heap.clearOn, offSize, offOn]
        rw [hsize]
        exact ⟨by omega, fun _ => rfl⟩
  · rename_i huge hbound
    obtain ⟨hmem, hreq⟩ := SizeTree.mem_of_upperBound hbound
    have hlen := hinv.freeChunk_le hin hmem
    have hfree := hinv.freeChunks.mem_iff.mpr hmem
    have hpos := hinv.geometry.chunks.pos huge (mem_append_left _ hfree)
    split at hok
    · rename_i hlt
      have hne : chunkPage huge.start ≠ chunkPage (huge.start + (huge.len - k)) := by
        rw [chunkPage_eq, chunkPage_eq]
        omega
      cases hok
      rw [put_mem, put_mem, put_mem,
        Function.update_of_ne (addr_ne_of_ne hne.symm (by decide) (by decide)),
            Function.update_self]
      exact ⟨by omega, fun _ => rfl⟩
    · rename_i hle
      cases hok
      have hhdr := hinv.headers (chunkPage huge.start, .free huge.len)
        (Layout.mem_hdrs.mpr (.inr (.inl ⟨huge, hfree, rfl⟩)))
      have hsize : h.nvm.mem (addr (chunkPage huge.start) offSize) = huge.len := hhdr.2
      rw [hsize]
      refine ⟨hlen, fun hlt => ?_⟩
      rw [Nat.mod_eq_of_lt hlt] at hreq
      exact Nat.le_antisymm (Nat.le_of_not_lt hle) hreq

end Given

/-! ## The bytes of a request -/

def Heap.headers (h : Heap) : List Nat :=
  (h.reserved ++ h.active).map pageOf ++ h.runs ++ h.freePageruns.toList.map start ++
    h.freeChunks.toList.map fun e => chunkPage e.start

structure Heap.Holds (h : Heap) (ptr n : Nat) : Prop where
  lower : (h.extent ptr).1 ≤ ptr
  upper : ptr + n ≤ (h.extent ptr).2
  headers : ∀ page ∈ h.headers, Apart (ptr, ptr + n) (runHdrBytes page)

section Holds

variable {h h' : Heap} {L : Layout} {n : Nat} {o : Obj}

theorem Session.headers_subset (hs : Session h L) : h.headers ⊆ L.hdrPages := by
  intro page hpage
  rw [L.hdrPages_perm.mem_iff]
  rw [Heap.headers, append_assoc, append_assoc, mem_append, mem_append, mem_append] at hpage
  rcases hpage with hpage | hpage | hpage | hpage
  · obtain ⟨ptr, hptr, rfl⟩ := mem_map.mp hpage
    obtain ⟨o, ho, rfl⟩ := hs.obj_of_mem hptr
    cases o with
    | small page i =>
      obtain ⟨hrun, -, -, hend⟩ := hs.toCore.slot_lt ho
      have hoff : headerSize + h.size page * i < 4096 := by
        have h64 := (hs.toCore.slot_lt ho).2.2.1
        rw [blockSize] at hend
        omega
      have hpage : pageOf (Obj.ptr h.size (.small page i)) = page := pageOf_addr hoff
      rw [hpage]
      exact mem_append_left _ (mem_append_right _ (hs.runs.symm ▸ hrun))
    | large e =>
      have hpage : pageOf (Obj.ptr h.size (.large e)) = e.start := pageOf_addr (by decide)
      rw [hpage]
      exact mem_append_left _ (mem_append_left _ (mem_map_of_mem (Layout.mem_pageExtents ho)))
    | huge e fresh =>
      have hpage : pageOf (Obj.ptr h.size (.huge e fresh)) = chunkPage e.start :=
        pageOf_addr (by decide)
      rw [hpage]
      exact mem_append_right _ (mem_map_of_mem (Layout.mem_chunkExtents ho))
  · exact mem_append_left _ (mem_append_right _ (hs.runs.symm ▸ hpage))
  · obtain ⟨e, he, rfl⟩ := mem_map.mp hpage
    exact mem_append_left _ (mem_append_left _
      (mem_map_of_mem (mem_append_left _ (hs.frees.mem_iff.mpr he))))
  · obtain ⟨e, he, rfl⟩ := mem_map.mp hpage
    exact mem_append_right _ (mem_map_of_mem (mem_append_left _ (hs.freeChunks.mem_iff.mpr he)))

theorem Obj.holds_of_le {size : Nat → Nat} (hle : o.ptr size + n ≤ (o.bytes size).2) {a : Nat}
    (hlo : o.ptr size ≤ a) (hhi : a < o.ptr size + n) : o.Holds size a := by
  cases o with
  | small page i => exact ⟨hlo, Nat.lt_of_lt_of_le hhi hle⟩
  | large e => exact ⟨hlo, Nat.lt_of_lt_of_le hhi hle⟩
  | huge e fresh => exact ⟨hlo, Nat.lt_of_lt_of_le hhi hle⟩

theorem Session.holds_iff (hs : Session h L) (ho : o ∈ L.objs) (n : Nat) :
    h.Holds (o.ptr h.size) n ↔ o.ptr h.size + n ≤ (o.bytes h.size).2 := by
  have hextent := hs.toCore.extent_ptr ho
  refine ⟨fun hholds => hextent ▸ hholds.upper, fun hle => ⟨?_, hextent.symm ▸ hle,
    fun page hpage a hand => ?_⟩⟩
  · rw [hextent]
    cases o with
    | small page i => exact Nat.le_refl _
    | large e => exact Nat.add_le_add_left (Nat.zero_le _) _
    | huge e fresh => exact Nat.add_le_add_left (Nat.zero_le _) _
  · obtain ⟨hlo, hhi, hlo', hhi'⟩ := hand
    have hlo'' : addr page 0 ≤ a := hlo'
    have hhi'' : a < addr page headerSize := hhi'
    have heq : a = addr page (a - addr page 0) := by
      rw [addr_eq, addr_eq] at *
      omega
    have hoff : a - addr page 0 < headerSize := by
      rw [addr_eq, addr_eq] at *
      omega
    exact hs.toCore.not_header ho (Obj.holds_of_le hle hlo hhi) (hs.headers_subset hpage) hoff heq

end Holds

/-! ## Requests -/

/-- The sizes that there is room for: the small ones, large ones with 64 bytes left in the last
page for the header, and huge ones that are not larger than NVM. -/
def Roomy (nBytes : Nat) : Prop :=
  nBytes ≤ sclassSmallMax ∨
    (nBytes ≤ sclassLargeMax ∧ 1 ≤ nBytes % blockSize ∧
        nBytes % blockSize ≤ blockSize - headerSize) ∨
    (sclassLargeMax < nBytes ∧ nBytes + headerSize ≤ maxNvmChunks * chunkSize)

instance (nBytes : Nat) : Decidable (Roomy nBytes) := inferInstanceAs (Decidable (_ ∨ _))

section Requests

variable {h h' h₁ : Heap} {L : Layout} {n ptr : Nat}

theorem le_round (n : Nat) : n ≤ n / 64 * 64 + if n % 64 ≠ 0 then 64 else 0 := by
  split <;> omega

theorem Session.holds_small (hs : Session h L) (hn : 1 ≤ n) (hle : n ≤ sclassSmallMax)
    (hok : h.arenaAllocate n = .ok (some ptr, h')) :
    ({ h' with reserved := ptr :: h'.reserved } : Heap).Holds ptr n := by
  rcases hs.toInv.allocateSlot hn hle with herr | ⟨h₁, L', page, i, heq, hres, hsize⟩
  · rw [herr] at hok
    cases hok
  · rw [heq] at hok
    cases hok
    have hs' := hs.reserved_cons hres
    have ho : Obj.small page i ∈ L'.objs :=
      mem_append_left _ (hres.res ▸ mem_cons_self)
    refine (hs'.holds_iff ho n).mpr (Nat.add_le_add_left ?_ _)
    exact (le_round n).trans (Nat.le_of_eq hsize.symm)

theorem pagesFor_iff (hgt : sclassSmallMax < n) (hle : n ≤ sclassLargeMax) :
    headerSize + n ≤ pagesFor n * blockSize ↔ Roomy n := by
  have hsmall : sclassSmallMax = 1984 := rfl
  have hlarge : sclassLargeMax = 1073741760 := rfl
  rw [pagesFor, Roomy, headerSize, blockSize]
  split <;> omega

theorem Session.holds_large (hs : Session h L) (hgt : sclassSmallMax < n) (hle : n ≤ sclassLargeMax)
    (hok : h.arenaAllocate n = .ok (some ptr, h')) :
    ({ h' with reserved := ptr :: h'.reserved } : Heap).Holds ptr n ↔ Roomy n := by
  rcases hs.toInv.allocatePages (Nat.not_le.mpr hgt) hle with herr | ⟨h₁, L', page, heq, hres⟩
  · rw [herr] at hok
    cases hok
  · rw [heq] at hok
    cases hok
    have hs' := hs.reserved_cons hres
    have ho : Obj.large ⟨page, pagesFor n⟩ ∈ L'.objs :=
      mem_append_left _ (hres.res ▸ mem_cons_self)
    refine (hs'.holds_iff ho n).trans (Iff.trans ?_ (pagesFor_iff hgt hle))
    show addr page headerSize + n ≤ addr (page + pagesFor n) 0 ↔ _
    rw [addr_eq, addr_eq, headerSize, blockSize]
    omega

theorem chunksFor_spec (hle : n + headerSize ≤ maxNvmChunks * chunkSize) :
    0 < chunksFor n ∧ chunksFor n < 2 ^ 32 ∧ headerSize + n ≤ chunksFor n * chunkSize := by
  have hmax : maxNvmChunks = 50 := by decide
  rw [hmax, chunkSize_eq, headerSize] at hle
  rw [chunksFor, headerSize, chunkSize_eq]
  omega

theorem Session.holds_huge (hs : Session h L) (hin : h.Inside) (hgt : sclassLargeMax < n)
    {chunk : Nat} (hok : h.reserveChunks n = .ok (chunk, h')) :
    ({ h' with reserved := addr (chunkPage chunk) headerSize :: h'.reserved } : Heap).Holds
      (addr (chunkPage chunk) headerSize) n ↔ Roomy n := by
  obtain ⟨hsize, hexact⟩ := hs.toInv.hugeSize hin hok
  have hmax : maxNvmChunks = 50 := by decide
  constructor
  · intro hholds
    have hupper := hholds.upper
    have hchunk : addr (chunkPage chunk) headerSize / chunkSize = chunk := by
      rw [addr_eq, chunkPage_eq, chunkSize_eq, headerSize]
      omega
    have hextent : ({ h' with
        reserved := addr (chunkPage chunk) headerSize :: h'.reserved } : Heap).extent
        (addr (chunkPage chunk) headerSize) =
          chunkBytes ⟨chunk, h'.nvm.mem (addr (chunkPage chunk) offSize)⟩ := by
      unfold Heap.extent
      dsimp only
      rw [pageOf_addr (by decide), isHuge_chunk, hchunk]
      rfl
    rw [hextent, chunkBytes] at hupper
    dsimp only at hupper
    generalize h'.nvm.mem (addr (chunkPage chunk) offSize) = size at hsize hupper
    rw [addr_eq, addr_eq, chunkPage_eq, chunkPage_eq, headerSize] at hupper
    refine .inr (.inr ⟨hgt, ?_⟩)
    rw [hmax] at hsize ⊢
    rw [headerSize, chunkSize_eq]
    omega
  · intro hroomy
    have hle : n + headerSize ≤ maxNvmChunks * chunkSize := by
      have hlarge : sclassSmallMax ≤ sclassLargeMax := by decide
      rcases hroomy with hsmall | ⟨hlarge', -⟩ | ⟨-, hle⟩
      · omega
      · omega
      · exact hle
    obtain ⟨hpos, hlt, hroom⟩ := chunksFor_spec hle
    rcases hs.toInv.reserveChunks hpos with herr | ⟨h₁, L', e, fresh, heq, hres⟩
    · rw [herr] at hok
      cases hok
    · rw [heq] at hok
      cases hok
      have hs' := hs.reserved_cons hres
      have ho : Obj.huge e fresh ∈ L'.objs :=
        mem_append_left _ (hres.res ▸ mem_cons_self)
      have hlen : e.len = chunksFor n := (hs'.toCore.huge_size ho).symm.trans (hexact hlt)
      refine (hs'.holds_iff ho n).mpr ?_
      show addr (chunkPage e.start) headerSize + n ≤ addr (chunkPage (e.start + e.len)) 0
      rw [hlen, addr_eq, addr_eq, chunkPage_eq, chunkPage_eq]
      rw [chunkSize_eq] at hroom
      omega

/-- What is reserved has room for what was asked for, without any header in it, exactly if its size
leaves room for the header. -/
theorem reserve_holds_iff {events : List Event}
    (hfits : ∀ nBytes, .reserve nBytes ∈ events → sclassLargeMax < nBytes → Fits nBytes)
    (hrun : run step events init = some h) (hstep : step (.reserve n) h = some h₁) :
    ∃ ptr, h₁.reserved.head? = some ptr ∧ (h₁.Holds ptr n ↔ Roomy n) := by
  obtain ⟨L, hs⟩ := session_run hfits hrun
  simp only [step] at hstep
  split at hstep
  · rename_i hn
    split at hstep
    · rename_i ptr h' hok
      cases hstep
      refine ⟨ptr, rfl, ?_⟩
      rw [Heap.nvmReserve] at hok
      split at hok
      · rename_i hlarge
        by_cases hsmall : n ≤ sclassSmallMax
        · exact iff_of_true (hs.holds_small hn.1 hsmall hok) (.inl hsmall)
        · exact hs.holds_large (Nat.lt_of_not_le hsmall) hlarge hok
      · rename_i hlarge
        cases hchunks : h.reserveChunks n with
        | error e =>
          rw [hchunks] at hok
          cases hok
        | ok r =>
          rw [hchunks] at hok
          cases hok
          exact hs.holds_huge (inside_run hrun) (Nat.lt_of_not_le hlarge) hchunks
    · cases hstep
  · cases hstep

/-- The second of two large objects, the first of which is freed before. -/
theorem reserve_holds_again : ∃ h h₁ ptr,
    run step [.reserve 3000, .activate (addr 524287 64) none, .free (addr 524287 64) none] init =
      some h ∧ step (.reserve 4032) h = some h₁ ∧ h₁.reserved.head? = some ptr ∧
      h₁.Holds ptr 4032 := by
  obtain ⟨h, hrun⟩ := Option.isSome_iff_exists.mp
    (by decide +kernel : (run step [.reserve 3000, .activate (addr 524287 64) none,
      .free (addr 524287 64) none] init).isSome)
  obtain ⟨h₁, hstep⟩ := Option.isSome_iff_exists.mp
    (by decide +kernel : ((run step [.reserve 3000, .activate (addr 524287 64) none,
      .free (addr 524287 64) none] init).bind (step (.reserve 4032))).isSome)
  rw [hrun, Option.bind_some] at hstep
  have hfits : ∀ nBytes, .reserve nBytes ∈ [Event.reserve 3000, .activate (addr 524287 64) none,
      .free (addr 524287 64) none] → sclassLargeMax < nBytes → Fits nBytes := by
    intro nBytes hmem hlarge
    have hsmall : nBytes = 3000 := by simpa using hmem
    have hmax : sclassLargeMax = 1073741760 := by decide
    omega
  obtain ⟨ptr, hptr, hiff⟩ := reserve_holds_iff hfits hrun hstep
  exact ⟨h, h₁, ptr, hrun, hstep, hptr, hiff.mpr (by decide)⟩

/-- A whole page has no room for its header. -/
theorem not_reserve_holds_page : ∃ h₁ ptr, step (.reserve 4096) init = some h₁ ∧
    h₁.reserved.head? = some ptr ∧ ¬h₁.Holds ptr 4096 := by
  have hany : ((step (.reserve 4096) init).any fun h₁ => h₁.reserved.head?.any fun ptr =>
      (h₁.extent ptr).2 < ptr + 4096) = true := by decide +kernel
  obtain ⟨h₁, hstep, hhead⟩ := (Option.any_eq_true _ _).mp hany
  obtain ⟨ptr, hptr, hlt⟩ := (Option.any_eq_true _ _).mp hhead
  rw [decide_eq_true_eq] at hlt
  exact ⟨h₁, ptr, hstep, hptr, fun hholds => Nat.not_le_of_lt hlt hholds.upper⟩

end Requests

end Pmdk.NvMalloc
