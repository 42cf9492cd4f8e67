import Noc.Memcpy
import Noc.Unistd
import Noc.Lib.Spans

/-! # `malloc.c`: the allocator

The functions of `malloc.c` on an explicit state: the bytes of the memory, the fields of
`struct malloc_state`, `errno` and the environment of `sbrk`. The free list lives in the memory, as
in the source: a chunk has its size at its address and, while it is free, a pointer to the next free
chunk behind it.

A loop over the free list takes as bound the number of addresses: a list that does not end within
that many nodes has come back to a node it visited, and the loop of the source does not end. The
result of such a call is `none`. -/

namespace Noc.Malloc

open Noc.Lib.Bytes Noc.Lib.Spans Noc.Targets Noc.Memcpy Noc.Unistd

/-- The memory, `struct malloc_state`, `errno` and the environment. -/
structure Heap (ε : Type) where
  mem : Mem
  sbrkStart : ℕ
  sbrkEnd : ℕ
  head : ℕ
  errno : ℕ
  env : ε

/-- `ENOMEM` -/
def ENOMEM : ℕ := 12

/-- A `struct free_chunk **`: the head of the list or the field `next` of a chunk. -/
inductive Link where
  | head
  | next (chunk : ℕ)
deriving DecidableEq, Repr

variable {ε : Type} (T : Target) (S : Sbrk ε)

/-! ### Chunks -/

/-- `MALLOC_MIN_SIZE`, the size of a `struct free_chunk` -/
def mallocMinSize : ℕ := 2 * T.ptrBytes

/-- `chunk->size` -/
def Heap.size (h : Heap ε) (chunk : ℕ) : ℕ := T.load h.mem chunk

/-- `chunk->size = size` -/
def Heap.setSize (h : Heap ε) (chunk size : ℕ) : Heap ε :=
  { h with mem := T.store h.mem chunk size }

/-- `*link` -/
def Heap.link (h : Heap ε) : Link → ℕ
  | .head => h.head
  | .next chunk => T.load h.mem (T.add chunk T.ptrBytes)

/-- `*link = chunk` -/
def Heap.setLink (h : Heap ε) (link : Link) (chunk : ℕ) : Heap ε :=
  match link with
  | .head => { h with head := chunk }
  | .next c => { h with mem := T.store h.mem (T.add c T.ptrBytes) chunk }

/-- `chunk_data_size` -/
def chunkDataSize (h : Heap ε) (chunk : ℕ) : ℕ := T.sub (h.size T chunk) T.ptrBytes

/-- `chunk_from_data` -/
def chunkFromData (ptr : ℕ) : ℕ := T.sub ptr T.ptrBytes

/-- `chunk_to_data` -/
def chunkToData (chunk : ℕ) : ℕ := T.add chunk T.ptrBytes

/-- `chunk_end` -/
def chunkEnd (h : Heap ε) (chunk : ℕ) : ℕ := T.add chunk (h.size T chunk)

/-- `chunk_size_for_data` -/
def chunkSizeForData (size : ℕ) : ℕ :=
  let pad := size % T.mallocAlign
  let size := if pad ≠ 0 then T.add size (T.mallocAlign - pad) else size
  T.add size T.ptrBytes

/-! ### Memory from the environment -/

/-- `aligned_sbrk` -/
def alignedSbrk (size : ℕ) (h : Heap ε) : ℕ × Heap ε :=
  if T.intptrMax < size then (T.sbrkFailure, h)
  else
    let r := S.call h.env size
    let p := r.1
    let h := { h with env := r.2 }
    if p = T.sbrkFailure then (p, { h with errno := ENOMEM })
    else
      let h := { h with sbrkEnd := T.add p size }
      -- `%` of a negative `intptr_t` is not positive
      let padSize : ℤ := (T.toIntptr p).tmod T.mallocAlign
      if padSize = 0 then (p, if h.sbrkStart = 0 then { h with sbrkStart := p } else h)
      else
        let padSize : ℤ := T.mallocAlign - padSize
        let r := S.call h.env padSize
        let pad := r.1
        let h := { h with env := r.2 }
        if pad ≠ h.sbrkEnd then (T.sbrkFailure, h)
        else
          let h := { h with sbrkEnd := T.add pad padSize.toNat }
          let p := T.add p padSize.toNat
          (p, if h.sbrkStart = 0 then { h with sbrkStart := p } else h)

/-! ### `noc_free` -/

/-- How the walk of `noc_free` ends: at a chunk that ends where the freed one starts, at the freed
chunk itself, or at the place to insert it. -/
inductive FreeScan where
  | left (prev : ℕ)
  | doubleFree
  | insert (parent : Link) (prev : ℕ)

/-- The `while` loop of `noc_free`. -/
def freeLoop (h : Heap ε) (chunk : ℕ) : ℕ → Link → Option FreeScan
  | 0, _ => none
  | fuel + 1, parent =>
    let prev := h.link T parent
    if prev ≠ 0 ∧ prev < chunk then
      if chunkEnd T h prev = chunk then some (.left prev)
      else if chunk = prev then some .doubleFree
      else freeLoop h chunk fuel (.next prev)
    else some (.insert parent prev)

/-- The right merge at the end of `noc_free`. -/
def mergeRight (h : Heap ε) (chunk prev : ℕ) : Heap ε :=
  if chunkEnd T h chunk = prev then
    let h := h.setSize T chunk (T.add (h.size T chunk) (h.size T prev))
    h.setLink T (.next chunk) (h.link T (.next prev))
  else h

/-- `noc_free` -/
def nocFree (ptr : ℕ) (h : Heap ε) : Option (Heap ε) :=
  if ptr < h.sbrkStart ∨ h.sbrkEnd ≤ ptr then some h
  else
    let chunk := chunkFromData T ptr
    if h.sbrkEnd < chunkEnd T h chunk then some h
    else
      let h := h.setLink T (.next chunk) 0
      match freeLoop T h chunk T.space .head with
      | none => none
      | some (.left prev) =>
        let h := h.setSize T prev (T.add (h.size T prev) (h.size T chunk))
        some (mergeRight T h prev (h.link T (.next prev)))
      | some .doubleFree => some h
      | some (.insert parent prev) =>
        let h := h.setLink T (.next chunk) prev
        let h := h.setLink T parent chunk
        some (mergeRight T h chunk prev)

/-- `insert_free_chunk` -/
def insertFreeChunk (chunk size : ℕ) (h : Heap ε) : Option (Heap ε) :=
  nocFree T (chunkToData T chunk) (h.setSize T chunk size)

/-- `chunk_grow` -/
def chunkGrow (chunk newSize : ℕ) (h : Heap ε) : Option (Bool × Heap ε) :=
  if chunk = 0 then some (false, h)
  else
    let chunkE := chunkEnd T h chunk
    if chunkE ≠ h.sbrkEnd then some (false, h)
    else
      let addSize := T.sub newSize (h.size T chunk)
      let addSize := if addSize < mallocMinSize T then mallocMinSize T else addSize
      let (heap, h) := alignedSbrk T S addSize h
      if heap = chunkE then some (true, h.setSize T chunk (T.add (h.size T chunk) addSize))
      else if heap ≠ T.sbrkFailure then
        (insertFreeChunk T heap addSize h).map fun h => (false, h)
      else some (false, h)

/-! ### `noc_malloc` -/

/-- The locals of the search loop of `noc_malloc`. -/
structure Search where
  parent : Link
  minExtra : ℕ
  minParent : Option Link

/-- The `while` loop of `noc_malloc`. -/
def searchLoop (h : Heap ε) (size : ℕ) : ℕ → Search → Option Search
  | 0, _ => none
  | fuel + 1, s =>
    let chunk := h.link T s.parent
    if chunk = 0 then some s
    else if size ≤ h.size T chunk ∧ h.size T chunk - size < s.minExtra then
      let s := { s with minExtra := h.size T chunk - size, minParent := some s.parent }
      -- almost exact match, stop the search
      if s.minExtra < T.mallocAlign then some s
      else searchLoop h size fuel { s with parent := .next chunk }
    else searchLoop h size fuel { s with parent := .next chunk }

/-- `noc_malloc`; `min_extra` starts as `-1U`, the largest `unsigned int`. -/
def nocMalloc (size : ℕ) (h : Heap ε) : Option (ℕ × Heap ε) :=
  if size = 0 then some (0, h)
  else
    let size := chunkSizeForData T size
    match searchLoop T h size T.space ⟨.head, 2 ^ 32 - 1, none⟩ with
    | none => none
    | some s =>
      match s.minParent with
      | some minParent =>
        let chunk := h.link T minParent
        let next := h.link T (.next chunk)
        if s.minExtra < mallocMinSize T then
          let size := T.add size s.minExtra
          let h := h.setLink T minParent (h.link T (.next chunk))
          some (chunkToData T chunk, h.setSize T chunk size)
        else
          let other := T.add chunk size
          let h := h.setSize T other s.minExtra
          let h := h.setLink T (.next other) next
          let h := h.setLink T minParent other
          some (chunkToData T chunk, h.setSize T chunk size)
      | none =>
        match chunkGrow T S (h.link T s.parent) size h with
        | none => none
        | some (true, h) => some (chunkToData T (h.link T s.parent), h)
        | some (false, h) =>
          let (chunk, h) := alignedSbrk T S size h
          if chunk = T.sbrkFailure then some (0, h)
          else some (chunkToData T chunk, h.setSize T chunk size)

/-! ### `noc_realloc` and `noc_calloc` -/

/-- The locals of the loop of `noc_realloc` that joins adjacent free chunks. -/
structure Merge (ε : Type) where
  heap : Heap ε
  parent : Link
  chunk : ℕ
  ptr : ℕ
  oldSize : ℕ

/-- The `while` loop of `noc_realloc`. -/
def mergeLoop (chunkE : ℕ) : ℕ → Merge ε → Option (Merge ε)
  | 0, _ => none
  | fuel + 1, s =>
    let h := s.heap
    let adjacent := h.link T s.parent
    if adjacent ≠ 0 ∧ adjacent ≤ chunkE then
      let adjacentSize := h.size T adjacent
      if chunkEnd T h adjacent = s.chunk then
        let h := h.setLink T s.parent (h.link T (.next adjacent))
        match memmove T h.mem (chunkToData T adjacent) (chunkToData T s.chunk)
          (chunkDataSize T h s.chunk) with
        | none => none
        | some mem =>
          let h := { h with mem := mem }
          let oldSize := T.add s.oldSize adjacentSize
          let h := h.setSize T adjacent oldSize
          mergeLoop chunkE fuel ⟨h, s.parent, adjacent, chunkToData T adjacent, oldSize⟩
      else if adjacent = chunkE then
        let h := h.setLink T s.parent (h.link T (.next adjacent))
        let oldSize := T.add s.oldSize adjacentSize
        let h := h.setSize T s.chunk oldSize
        let h := h.setSize T adjacent 0
        let h := h.setLink T (.next adjacent) 0
        some { s with heap := h, oldSize := oldSize }
      else mergeLoop chunkE fuel { s with parent := .next adjacent }
    else some s

/-- The end of `noc_realloc`: split an oversized chunk, or allocate, copy and free. The source calls
`free(ptr)`, which is `noc_free` on the only state there is. -/
def reallocFinish (size allocSize : ℕ) (s : Merge ε) : Option (ℕ × Heap ε) :=
  let h := s.heap
  if allocSize ≤ s.oldSize then
    let extra := s.oldSize - allocSize
    if mallocMinSize T ≤ extra then
      let h := h.setSize T s.chunk allocSize
      (insertFreeChunk T (chunkEnd T h s.chunk) extra h).map fun h => (s.ptr, h)
    else some (s.ptr, h)
  else
    match nocMalloc T S size h with
    | none => none
    | some (new, h) =>
      if new ≠ 0 then
        let h := { h with mem := memcpy T h.mem new s.ptr (chunkDataSize T h s.chunk) }
        (nocFree T s.ptr h).map fun h => (new, h)
      else some (new, h)

/-- `noc_realloc` -/
def nocRealloc (ptr size : ℕ) (h : Heap ε) : Option (ℕ × Heap ε) :=
  if ptr = 0 then nocMalloc T S size h
  else if size = 0 then (nocFree T ptr h).map fun h => (0, h)
  else if ptr < h.sbrkStart ∨ h.sbrkEnd < ptr then some (0, h)
  else
    let chunk := chunkFromData T ptr
    let chunkE := chunkEnd T h chunk
    if h.sbrkEnd < chunkE then some (0, h)
    else
      let allocSize := chunkSizeForData T size
      let oldSize := h.size T chunk
      if oldSize < allocSize then
        match chunkGrow T S chunk allocSize h with
        | none => none
        | some (true, h) => reallocFinish T S size allocSize ⟨h, .head, chunk, ptr, allocSize⟩
        | some (false, h) =>
          match mergeLoop T chunkE T.space ⟨h, .head, chunk, ptr, oldSize⟩ with
          | none => none
          | some s => reallocFinish T S size allocSize s
      else reallocFinish T S size allocSize ⟨h, .head, chunk, ptr, oldSize⟩

/-- `noc_calloc` -/
def nocCalloc (nmemb size : ℕ) (h : Heap ε) : Option (ℕ × Heap ε) :=
  if T.space ≤ nmemb * size then some (0, h)
  else
    match nocMalloc T S size h with
    | none => none
    | some (ptr, h) =>
      if ptr ≠ 0 then some (ptr, { h with mem := memset T h.mem ptr 0 (nmemb * size) })
      else some (ptr, h)

/-! ### The free list as data -/

/-- The chunks of the list behind `link`, if it ends. -/
def chunksFrom (h : Heap ε) : ℕ → Link → Option (List Span)
  | 0, _ => none
  | fuel + 1, link =>
    let chunk := h.link T link
    if chunk = 0 then some []
    else (chunksFrom h fuel (.next chunk)).map (⟨chunk, h.size T chunk⟩ :: ·)

/-- The free list, if it ends. -/
def freeChunks (h : Heap ε) : Option (List Span) := chunksFrom T h T.space .head

/-- The loop of `mem_free`. -/
def memFreeLoop (h : Heap ε) : ℕ → ℕ → ℕ → Option ℕ
  | 0, _, _ => none
  | fuel + 1, head, count =>
    if head = 0 then some count
    else memFreeLoop h fuel (h.link T (.next head)) (T.add count (h.size T head))

/-- `mem_free` -/
def memFree (h : Heap ε) : Option ℕ := memFreeLoop T h T.space h.head 0

end Noc.Malloc
