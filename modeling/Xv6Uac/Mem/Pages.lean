import Xv6Uac.Lib.Hoare
import Xv6Uac.Param
import Mathlib.Logic.Function.Basic
import Mathlib.Algebra.Group.Nat.Defs

/-!
# Physical pages and page tables

The functions of `kalloc.c` and `vm.c` on the free list and on the pages that serve as page
directories and page tables. A page of physical memory is named by its frame number and a
page of virtual memory by its page number, so `PDX` is the quotient by 1024 and `PTX` the
remainder. What pages of data hold is left out.

`kalloc` fails if the free list is empty, and also whenever `deny` says so for the number of
the call: another CPU can have taken the pages. Sizes of processes are at most `KERNBASE`, so
the addresses that the loops count through do not wrap.
-/

namespace Xv6Uac.Memory

open Hoare

/-- Why a call does not return: the panics of `kalloc.c`, `vm.c`, `proc.c` and `file.c`, a
null pointer that is used, and a wait for another process. -/
inductive Stop where
  | kfree
  | remap
  | loaduvm
  | clearpteu
  | pteShouldExist
  | pageNotPresent
  | userinit
  | initExiting
  | filedup
  | fileclose
  | fault
  | sleeping
deriving DecidableEq, Repr

/-- An entry of a page directory or a page table. -/
structure Pte where
  present : Bool
  writable : Bool
  user : Bool
  frame : ℕ
deriving DecidableEq

/-- What `memset(_, 0, PGSIZE)` leaves. -/
def Pte.zero : Pte := ⟨false, false, false, 0⟩

/-- What `memset(_, 1, PGSIZE)` leaves: the word `0x01010101`. -/
def Pte.junk : Pte := ⟨true, false, false, 0x1010⟩

/-- The free list and the words of the pages. -/
structure Mem where
  freelist : List ℕ
  kallocs : ℕ
  word : ℕ → ℕ → Pte

/-- An entry of the table `kmap`. -/
structure Kmap where
  virt : ℕ
  physStart : ℕ
  physEnd : ℕ
  writable : Bool

/-- `phys_end - phys_start` in 32 bits. -/
def Kmap.size (k : Kmap) : ℕ := (k.physEnd + (2 ^ 32 - k.physStart)) % 2 ^ 32

/-- The machine: the frames that `kinit1` and `kinit2` give to the allocator, the mappings of
the kernel, the number of CPUs and the calls of `kalloc` that fail. -/
structure Layout where
  first : ℕ
  mid : ℕ
  last : ℕ
  kmap : List Kmap
  ncpu : ℕ
  deny : ℕ → Bool
  kernel : ∀ k ∈ kmap, KERNBASE ≤ k.virt ∧ 0 < k.size ∧ k.virt + k.size ≤ 2 ^ 32

/-- `PGROUNDUP(sz) / PGSIZE`. -/
def pages (sz : ℕ) : ℕ := (sz + (PGSIZE - 1)) / PGSIZE

variable (L : Layout)

/-! ## The allocator -/

def kalloc : Prog Mem Stop (Option ℕ) := do
  let n ← gets Mem.kallocs
  update fun m => { m with kallocs := n + 1 }
  let list ← gets Mem.freelist
  match list with
  | [] => pure none
  | f :: rest =>
    if L.deny n then pure none
    else do
      update fun m => { m with freelist := rest }
      pure (some f)

/-- Fill a page with a word. -/
def memset (f : ℕ) (e : Pte) : Prog Mem Stop Unit :=
  update fun m => { m with word := Function.update m.word f fun _ => e }

def kfree (f : ℕ) : Prog Mem Stop Unit :=
  if f < L.first ∨ L.last ≤ f then
    fail .kfree
  else do
    memset f .junk
    update fun m => { m with freelist := f :: m.freelist }

/-! ## Page tables -/

/-- Write an entry. -/
def setWord (f i : ℕ) (e : Pte) : Prog Mem Stop Unit :=
  update fun m => { m with word := Function.update m.word f (Function.update (m.word f) i e) }

/-- The page table with the entry of page `v`. -/
def walkpgdir (d v : ℕ) (alloc : Bool) : Prog Mem Stop (Option ℕ) := do
  let pde ← gets fun m => m.word d (v / NPTENTRIES)
  if pde.present then
    pure (some pde.frame)
  else if alloc then do
    let mem ← kalloc L
    match mem with
    | none => pure none
    | some t => do
      memset t .zero
      setWord d (v / NPTENTRIES) ⟨true, true, true, t⟩
      pure (some t)
  else
    pure none

/-- `mappages` for `n` pages from `v` on. It says whether it returns 0. -/
def mappages (d : ℕ) (writable user : Bool) : ℕ → ℕ → ℕ → Prog Mem Stop Bool
  | 0, _, _ => pure true
  | n + 1, v, pa => do
    let table ← walkpgdir L d v true
    match table with
    | none => pure false
    | some t => do
      let pte ← gets fun m => m.word t (v % NPTENTRIES)
      if pte.present then
        fail .remap
      else do
        setWord t (v % NPTENTRIES) ⟨true, writable, user, pa⟩
        mappages d writable user n (v + 1) (pa + 1)

/-! ## Removing pages -/

/-- The loop of `deallocuvm`. A page table that is missing is skipped. -/
def deallocLoop (d oldsz : ℕ) : ℕ → ℕ → Prog Mem Stop Unit
  | 0, _ => pure ()
  | n + 1, v =>
    if v * PGSIZE < oldsz then do
      let table ← walkpgdir L d v false
      match table with
      | none => deallocLoop d oldsz n ((v / NPTENTRIES + 1) * NPTENTRIES)
      | some t => do
        let pte ← gets fun m => m.word t (v % NPTENTRIES)
        when (pte.present = true) do
          kfree L pte.frame
          setWord t (v % NPTENTRIES) .zero
        deallocLoop d oldsz n (v + 1)
    else
      pure ()

def deallocuvm (d oldsz newsz : ℕ) : Prog Mem Stop ℕ :=
  if oldsz ≤ newsz then
    pure oldsz
  else do
    deallocLoop L d oldsz (pages oldsz - pages newsz) (pages newsz)
    pure newsz

/-- The loop of `freevm` over the page tables. -/
def freeTable (d i : ℕ) : Prog Mem Stop Unit := do
  let pde ← gets fun m => m.word d i
  when (pde.present = true) (kfree L pde.frame)

def freevm (d : ℕ) : Prog Mem Stop Unit := do
  let _ ← deallocuvm L d KERNBASE 0
  upto NPTENTRIES (freeTable L d)
  kfree L d

/-! ## Making page tables -/

/-- The loop of `setupkvm`. -/
def mapKernel (d : ℕ) : List Kmap → Prog Mem Stop Bool
  | [] => pure true
  | k :: rest => do
    let mapped ← mappages L d k.writable false
      ((k.virt + k.size - 1) / PGSIZE - k.virt / PGSIZE + 1) (k.virt / PGSIZE)
      (k.physStart / PGSIZE)
    if mapped then mapKernel d rest else pure false

def setupkvm : Prog Mem Stop (Option ℕ) := do
  let mem ← kalloc L
  match mem with
  | none => pure none
  | some d => do
    memset d .zero
    let mapped ← mapKernel L d L.kmap
    if mapped then
      pure (some d)
    else do
      freevm L d
      pure none

/-- The loop of `allocuvm`. -/
def allocLoop (d oldsz newsz : ℕ) : ℕ → ℕ → Prog Mem Stop ℕ
  | 0, _ => pure newsz
  | n + 1, v => do
    let mem ← kalloc L
    match mem with
    | none => do
      let _ ← deallocuvm L d newsz oldsz
      pure 0
    | some f => do
      memset f .zero
      let mapped ← mappages L d true true 1 v f
      if mapped then
        allocLoop d oldsz newsz n (v + 1)
      else do
        let _ ← deallocuvm L d newsz oldsz
        kfree L f
        pure 0

def allocuvm (d oldsz newsz : ℕ) : Prog Mem Stop ℕ :=
  if KERNBASE ≤ newsz then
    pure 0
  else if newsz < oldsz then
    pure oldsz
  else
    allocLoop L d oldsz newsz (pages newsz - pages oldsz) (pages oldsz)

/-- `clearpteu`. -/
def clearpteu (d v : ℕ) : Prog Mem Stop Unit := do
  let table ← walkpgdir L d v false
  match table with
  | none => fail .clearpteu
  | some t => do
    let pte ← gets fun m => m.word t (v % NPTENTRIES)
    setWord t (v % NPTENTRIES) { pte with user := false }

/-- The loop of `copyuvm`. -/
def copyLoop (old new : ℕ) : ℕ → ℕ → Prog Mem Stop Bool
  | 0, _ => pure true
  | n + 1, v => do
    let table ← walkpgdir L old v false
    match table with
    | none => fail .pteShouldExist
    | some t => do
      let pte ← gets fun m => m.word t (v % NPTENTRIES)
      if pte.present = false then
        fail .pageNotPresent
      else do
        let mem ← kalloc L
        match mem with
        | none => pure false
        | some f => do
          let mapped ← mappages L new pte.writable pte.user 1 v f
          if mapped then
            copyLoop old new n (v + 1)
          else do
            kfree L f
            pure false

def copyuvm (d sz : ℕ) : Prog Mem Stop (Option ℕ) := do
  let made ← setupkvm L
  match made with
  | none => pure none
  | some new => do
    let copied ← copyLoop L d new (pages sz) 0
    if copied then
      pure (some new)
    else do
      freevm L new
      pure none

/-- The loop of `loaduvm`, which says whether all pages could be read. -/
def loaduvm (d : ℕ) (reads : ℕ → Bool) : ℕ → ℕ → Prog Mem Stop Bool
  | 0, _ => pure true
  | n + 1, v => do
    let table ← walkpgdir L d v false
    match table with
    | none => fail .loaduvm
    | some _ => if reads v then loaduvm d reads n (v + 1) else pure false

end Xv6Uac.Memory
