import MiniOS.Bootmm
import MiniOS.PageTable

/-!
# The mappings of the kernel

`boot_page_walk`, `boot_map_region` and `mmio_map_region` of `bootmm.c` on the tables of `kpgd`,
which come from the boot allocator. The entries and their checks are those of `PageTable`.
-/

namespace MiniOS

def pagePwt : Nat := 0x008

def pagePcd : Nat := 0x010

def kernelMmio : Nat := 0xFF800000

def kernelMmioLimit : Nat := 0xFFC00000

def PageConfig.physaddr : PageConfig → Nat → Nat
  | level2, pa => wrap pa
  | level3, pa => pa % 2 ^ 64

/-- What does not change after boot; `kpgd` is the frame of the page directory. -/
structure KernelEnv where
  config : PageConfig
  map : List Mmap
  bssEnd : Nat
  kpgd : Nat

structure KernelMap where
  mem : PageMem
  boot : Boot
  mmioBase : Nat

namespace KernelMap

variable (e : KernelEnv)

def bootPage (k : KernelMap) : Option (Nat × KernelMap) :=
  (k.boot.allocBootmmPages e.bssEnd (getNormalMaxpfn e.map) 1).bind fun (tmp, boot) =>
    (virtToPhys tmp).map fun pa =>
      (pa, { k with
        boot := boot
        mem := { k.mem with entry := Function.update k.mem.entry (pa >>> pageShift) fun _ => 0 } })

def bootGetPmd (k : KernelMap) (pgd : EntryPtr) (perm : Nat) : Option KernelMap :=
  (k.bootPage e).bind fun (pa, k) =>
    let pe := match e.config with
      | .level3 => perm &&& ((2 ^ 32 - 1) ^^^ (pageRw ||| pageUser))
      | .level2 => perm
    (k.mem.pgdSet pgd pa pe).map fun mem => { k with mem := mem }

def bootGetPte (k : KernelMap) (pmd : EntryPtr) (perm : Nat) : Option KernelMap :=
  (k.bootPage e).bind fun (pa, k) => (k.mem.pmdSet pmd pa perm).map fun mem => { k with mem := mem }

def bootPageWalk (k : KernelMap) (address : Nat) (create : Bool) : Option (Option EntryPtr × KernelMap) :=
  let pgd := PageMem.pgdOffset e.config e.kpgd address
  if k.mem.val pgd = 0 ∧ create = false then some (none, k)
  else
    (if k.mem.val pgd = 0 then k.bootGetPmd e pgd (pagePresent ||| pageRw ||| pageUser) else some k).bind fun k =>
      (k.mem.pmdOffset e.config pgd address).bind fun pmd =>
        if k.mem.val pmd = 0 ∧ create = false then some (none, k)
        else
          (if k.mem.val pmd = 0 then k.bootGetPte e pmd (pagePresent ||| pageRw ||| pageUser) else some k).bind
              fun k =>
            (k.mem.pteOffset e.config pmd address).map fun pte => (some pte, k)

def bootMapPage (k : KernelMap) (va pa perm : Nat) : Option KernelMap :=
  (k.bootPageWalk e va true).bind fun (pte, k) =>
    pte.bind fun pte => (k.mem.pteSet pte pa perm).map fun mem => { k with mem := mem }

/-- In all calls `size` is a multiple of `PAGE_SIZE`. -/
def bootMapRegion (k : KernelMap) (va size pa perm : Nat) : Option KernelMap :=
  (List.range (size / pageSize)).foldlM
    (fun k j => k.bootMapPage e (wrap (va + j * pageSize)) (e.config.physaddr (pa + j * pageSize)) perm) k

-- `ROUNDDOWN` goes through a `viraddr_t`, also for a `physaddr_t` of 64 bits.
def mmioMapRegion (k : KernelMap) (pa size : Nat) : Option (Nat × KernelMap) :=
  let size := roundUp size pageSize
  let pa := roundDown (wrap pa) pageSize
  if kernelMmioLimit ≤ wrap (k.mmioBase + size) then none
  else
    (k.bootMapRegion e k.mmioBase size pa (pagePresent ||| pagePcd ||| pagePwt ||| pageRw)).map fun k =>
      let base := wrap (k.mmioBase + size)
      (wsub base size, { k with mmioBase := base })

def mmioCalls (k : KernelMap) (calls : List (Nat × Nat)) : Option KernelMap :=
  calls.foldlM (fun k (pa, size) => (k.mmioMapRegion e pa size).map Prod.snd) k

end KernelMap

end MiniOS
