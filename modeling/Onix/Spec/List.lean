import Onix.Lib.Bytes
import Onix.Lib.Linked

/-! `lib/list.c`: doubly linked lists with a head and a tail sentinel. A pointer to a node
is an address, `none` the null pointer; a result `none` of an operation is a failed
assertion or a null pointer followed. -/

namespace Onix.Lists

open Function

abbrev Addr := BitVec 32

abbrev Memory := Links Addr

/-- `list_t`, by the addresses of its sentinels. -/
structure ListT where
  head : Addr
  tail : Addr

/-- No list in a memory has as many nodes as there are addresses, so that a loop along
`next` has left it after that many turns. -/
def TURNS : ℕ := 2 ^ 32

section Operations

variable (m : Memory) (list : ListT) (anchor node : Addr)

def setPrev (p : Option Addr) : Memory := { m with prev := update m.prev node p }

def setNext (p : Option Addr) : Memory := { m with next := update m.next node p }

/-- `list_init`. -/
def listInit : Memory :=
  let m := setPrev m list.head none
  let m := setNext m list.tail none
  let m := setNext m list.head (some list.tail)
  setPrev m list.tail (some list.head)

/-- `list_insert_before`. -/
def listInsertBefore : Option Memory :=
  let m := setPrev m node (m.prev anchor)
  let m := setNext m node (some anchor)
  match m.prev anchor with
  | none => none
  | some p =>
    let m := setNext m p (some node)
    some (setPrev m anchor (some node))

/-- `list_insert_after`. -/
def listInsertAfter : Option Memory :=
  let m := setPrev m node (some anchor)
  let m := setNext m node (m.next anchor)
  match m.next anchor with
  | none => none
  | some q =>
    let m := setPrev m q (some node)
    some (setNext m anchor (some node))

/-- `list_remove`. -/
def listRemove : Option Memory :=
  match m.prev node, m.next node with
  | some p, some q =>
    let m := setNext m p (some q)
    match m.next node with
    | none => none
    | some q =>
      let m := setPrev m q (m.prev node)
      some (setPrev (setNext m node none) node none)
  | _, _ => none

/-- `list_empty`. -/
def listEmpty : Bool := m.next list.head = some list.tail

/-- The loop of `list_search`. -/
def searchLoop (m : Memory) (list : ListT) (node : Addr) : (turns : ℕ) → Option Addr → Option Bool
  | 0, _ => none
  | _ + 1, none => none
  | n + 1, some ptr =>
    if ptr = list.tail then some false
    else if ptr = node then some true
    else searchLoop m list node n (m.next ptr)

/-- `list_search`. -/
def listSearch : Option Bool := searchLoop m list node TURNS (m.next list.head)

/-- The loop of `list_size`. -/
def sizeLoop (m : Memory) (list : ListT) : (turns : ℕ) → Option Addr → ℕ → Option ℕ
  | 0, _, _ => none
  | _ + 1, none, _ => none
  | n + 1, some ptr, size =>
    if ptr = list.tail then some size
    else sizeLoop m list n (m.next ptr) ((size + 1) % 2 ^ 32)

/-- `list_size`. -/
def listSize : Option ℕ := sizeLoop m list TURNS (m.next list.head) 0

/-- `list_push`. -/
def listPush : Option Memory :=
  match listSearch m list node with
  | some false => listInsertAfter m list.head node
  | _ => none

/-- `list_pushback`. -/
def listPushback : Option Memory :=
  match listSearch m list node with
  | some false => listInsertBefore m list.tail node
  | _ => none

/-- `list_pop`, with the node it returns. -/
def listPop : Option (Memory × Option Addr) :=
  if listEmpty m list then none
  else
    match m.next list.head with
    | none => none
    | some node => (listRemove m node).map fun m => (m, some node)

/-- `list_popback`: the function ends without a `return`, its result has no value. -/
def listPopback : Option (Memory × Option Addr) :=
  if listEmpty m list then none
  else
    match m.prev list.tail with
    | none => none
    | some node => (listRemove m node).map fun m => (m, none)

/-- The loop of `list_insert_sort`: the anchor. -/
def anchorLoop (m : Memory) (list : ListT) (key : Addr → ℤ) (node : Addr) :
    (turns : ℕ) → Option Addr → Option Addr
  | 0, _ => none
  | _ + 1, none => none
  | n + 1, some ptr =>
    if ptr = list.tail then some list.tail
    else if key node < key ptr then some ptr
    else anchorLoop m list key node n (m.next ptr)

/-- `list_insert_sort`; `key` is the `int` beside each node. -/
def listInsertSort (key : Addr → ℤ) : Option Memory :=
  match anchorLoop m list key node TURNS (m.next list.head) with
  | none => none
  | some anchor =>
    if m.next node = none ∧ m.prev node = none then listInsertBefore m anchor node else none

end Operations

section Calls

variable {ι : Type} [DecidableEq ι]

/-- The calls on the lists `ι`. -/
inductive Call (ι : Type) where
  | push (i : ι) (node : Addr)
  | pushback (i : ι) (node : Addr)
  | pop (i : ι)
  | insertBefore (anchor node : Addr)
  | insertAfter (anchor node : Addr)
  | insertSort (i : ι) (node : Addr) (key : Addr → ℤ)
  | remove (node : Addr)

variable (lists : ι → ListT) (m : Memory) (S : ι → List Addr)

/-- What a call does in memory, and what it returns. -/
def exec : Call ι → Option (Memory × Option Addr)
  | .push i node => (listPush m (lists i) node).map fun m => (m, none)
  | .pushback i node => (listPushback m (lists i) node).map fun m => (m, none)
  | .pop i => listPop m (lists i)
  | .insertBefore anchor node => (listInsertBefore m anchor node).map fun m => (m, none)
  | .insertAfter anchor node => (listInsertAfter m anchor node).map fun m => (m, none)
  | .insertSort i node key => (listInsertSort m (lists i) node key).map fun m => (m, none)
  | .remove node => (listRemove m node).map fun m => (m, none)

/-- A node that is no sentinel and in no list. -/
def Loose (node : Addr) : Prop :=
  ∀ i, node ≠ (lists i).head ∧ node ≠ (lists i).tail ∧ node ∉ S i

/-- A node is inserted only while it is in no list, the anchor is in a list, and a node is
removed only while it is in one. -/
def Legal : Call ι → Prop
  | .push _ node | .pushback _ node | .insertSort _ node _ => Loose lists S node
  | .pop _ => True
  | .insertBefore anchor node | .insertAfter anchor node =>
    Loose lists S node ∧ ∃ i, anchor ∈ S i
  | .remove node => ∃ i, node ∈ S i

/-- `node` before the first `anchor`. -/
def before (anchor node : Addr) : List Addr → List Addr
  | [] => []
  | x :: xs => if x = anchor then node :: x :: xs else x :: before anchor node xs

/-- `node` behind the first `anchor`. -/
def behind (anchor node : Addr) : List Addr → List Addr
  | [] => []
  | x :: xs => if x = anchor then x :: node :: xs else x :: behind anchor node xs

/-- `node` before the first node with a greater key. -/
def sorted (key : Addr → ℤ) (node : Addr) : List Addr → List Addr
  | [] => [node]
  | x :: xs => if key node < key x then node :: x :: xs else x :: sorted key node xs

/-- What a call does to the sequences; `none` is the failed assertion of a pop from an
empty list. -/
def apply : Call ι → Option ((ι → List Addr) × Option Addr)
  | .push i node => some (update S i (node :: S i), none)
  | .pushback i node => some (update S i (S i ++ [node]), none)
  | .pop i =>
    match S i with
    | [] => none
    | x :: xs => some (update S i xs, some x)
  | .insertBefore anchor node => some (fun i => before anchor node (S i), none)
  | .insertAfter anchor node => some (fun i => behind anchor node (S i), none)
  | .insertSort i node key => some (update S i (sorted key node (S i)), none)
  | .remove node => some (fun i => (S i).erase node, none)

/-- A legal call, in memory and on the sequences. -/
def Step (s : Memory × (ι → List Addr)) (c : Call ι) (s' : Memory × (ι → List Addr)) : Prop :=
  Legal lists s.2 c ∧ ∃ r, exec lists s.1 c = some (s'.1, r) ∧ apply s.2 c = some (s'.2, r)

/-- After `list_init` of every list, the links of all other nodes null; the sentinels are
different nodes. -/
structure Init : Prop where
  init : ∀ i, listInit m (lists i) = m
  null : ∀ a, (∀ i, a ≠ (lists i).head ∧ a ≠ (lists i).tail) → m.prev a = none ∧ m.next a = none
  heads : Injective fun i => (lists i).head
  tails : Injective fun i => (lists i).tail
  apart : ∀ i j, (lists i).head ≠ (lists j).tail

/-- The memory holds the sequences. -/
structure Agrees : Prop where
  next : ∀ i k, (S i).length < k →
    Links.chase m.next k (lists i).head = S i ++ [(lists i).tail]
  prev : ∀ i k, (S i).length < k →
    Links.chase m.prev k (lists i).tail = (S i).reverse ++ [(lists i).head]
  nodup : ∀ i, (S i).Nodup
  apart : ∀ i j a, a ∈ S i → a ∈ S j → i = j
  null : ∀ a, Loose lists S a → m.prev a = none ∧ m.next a = none
  search : ∀ i a, listSearch m (lists i) a = some (decide (a ∈ S i))
  size : ∀ i, listSize m (lists i) = some (S i).length
  empty : ∀ i, listEmpty m (lists i) = true ↔ S i = []

end Calls

section Queue

/-- `element_offset(buffer_t, hnode)` and `element_offset(buffer_t, rnode)`. -/
def HNODE : Addr := 16

def RNODE : Addr := 24

/-- The end of `get_free_buffer`: the buffer around the node of `free_list` that
`list_popback` returns, out of its chain `hash_table[hash(bf->dev, bf->block)]`. -/
def evict (m : Memory) (free : ListT) (chain : Addr → ListT) : Option (Memory × Addr) :=
  match listPopback m free with
  | some (m, some node) =>
    let bf := node - RNODE
    match listSearch m (chain bf) (bf + HNODE) with
    | some true => (listRemove m (bf + HNODE)).map fun m => (m, bf)
    | _ => none
  | _ => none

inductive QueueCall where
  | push (node : Addr)
  | popback
  deriving DecidableEq

/-- The memory, the nodes pushed so far, and what each `list_popback` returned. -/
structure Queue where
  memory : Memory
  pushed : List Addr
  returned : List (Option Addr)

variable (list : ListT)

/-- The nodes pushed and not unlinked, if the oldest ones are unlinked first. -/
def Queue.waiting (q : Queue) : List Addr := q.pushed.drop q.returned.length

def Queue.exec (q : Queue) : QueueCall → Option Queue
  | .push node =>
    (listPush q.memory list node).map fun m => ⟨m, q.pushed ++ [node], q.returned⟩
  | .popback =>
    (listPopback q.memory list).map fun x => ⟨x.1, q.pushed, q.returned ++ [x.2]⟩

/-- A call on the one list; a node is pushed only while it is not in it. -/
def QueueStep (q : Queue) (c : QueueCall) (q' : Queue) : Prop :=
  (∀ node, c = .push node → node ≠ list.head ∧ node ≠ list.tail ∧ node ∉ q.waiting) ∧
    q.exec list c = some q'

/-- The list returns what was pushed first. -/
def Queue.Fifo (q : Queue) : Prop := q.returned = (q.pushed.take q.returned.length).map some

end Queue

section Sorting

/-- `element_node_key(node, offset)`: the `int` at `offset` from the node. -/
def elementNodeKey (data : Bytes) (offset node : Addr) : ℤ :=
  (BitVec.ofNat 32 (data.rd32 (node + offset).toNat)).toInt

/-- The links are those of a list of the nodes `L`, all of them different. -/
structure Forms (m : Memory) (list : ListT) (L : List Addr) : Prop where
  chain : List.IsChain m.Link (list.head :: (L ++ [list.tail]))
  nodup : (list.head :: (L ++ [list.tail])).Nodup

end Sorting

end Onix.Lists
