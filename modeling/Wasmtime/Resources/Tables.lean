import Wasmtime.Resources.Table

/-!
# The resource tables of a store and their call scopes

`ResourceTables` of `vm/component/resources.rs`: one table for each component instance, the table of
the host, and the stack of call scopes. A scope counts the borrows lowered in it (`borrowCount`) and
lists the handles lent to it (`lenders`); a `Borrow` slot names its scope by position in the stack.
`Parts` says which tables the view handed to an operation has; one that needs a missing table
panics.
-/

namespace Wasmtime.Resources

open Base

/-- State related to borrows for a specific call. -/
structure CallContext where
  lenders : List TypedResourceIndex
  borrowCount : Nat
deriving DecidableEq

instance : Inhabited CallContext := ⟨⟨[], 0⟩⟩

/-- The active calls, the outermost first. -/
structure CallContexts where
  scopes : List CallContext
deriving DecidableEq

namespace CallContexts

def push (c : CallContexts) (cx : CallContext) : CallContexts := { scopes := c.scopes ++ [cx] }

def pop (c : CallContexts) : Option (CallContext × CallContexts) :=
  match c.scopes.getLast? with
  | none => none
  | some cx => some (cx, { scopes := c.scopes.dropLast })

def setLast (c : CallContexts) (cx : CallContext) : CallContexts :=
  { scopes := c.scopes.dropLast ++ [cx] }

end CallContexts

structure ResourceTables where
  guest : List ResourceTable
  types : List Nat
  hostTable : ResourceTable
  calls : CallContexts
deriving DecidableEq

/-- Which of the optional fields of `ResourceTables` are present. -/
structure Parts where
  guest : Bool
  host : Bool

inductive TableKey where
  | host
  | guest (instance_ : Nat)
deriving DecidableEq

def TypedResource.ty : TypedResource → Option Nat
  | host _ => none
  | component _ ty => some ty

def TypedResourceIndex.ty : TypedResourceIndex → Option Nat
  | host _ => none
  | component _ ty => some ty

namespace ResourceTables

def table (s : ResourceTables) : TableKey → ResourceTable
  | .host => s.hostTable
  | .guest i => s.guest.getD i default

def setTable (s : ResourceTables) (k : TableKey) (t : ResourceTable) : ResourceTables :=
  match k with
  | .host => { s with hostTable := t }
  | .guest i => { s with guest := s.guest.set i t }

def locate (s : ResourceTables) : Option Nat → Option TableKey
  | none => some .host
  | some ty =>
    (s.types[ty]?).bind (fun i => if i < s.guest.length then some (.guest i) else none)

def init (instances : Nat) (types : List Nat) : ResourceTables :=
  { guest := List.replicate instances default, types, hostTable := default,
    calls := { scopes := [] } }

def tableFor (p : Parts) (ty : Option Nat) : Prog ResourceTables Error TableKey := do
  let s ← Prog.get
  match ty with
  | none =>
    if p.host then pure .host else Prog.panic (.unwrap "host_table")
  | some _ =>
    if p.guest then Prog.unwrap (s.locate ty) (.bounds "tables")
    else Prog.panic (.unwrap "guest")

def tableForResource (p : Parts) (resource : TypedResource) : Prog ResourceTables Error TableKey :=
  tableFor p resource.ty

def tableForIndex (p : Parts) (index : TypedResourceIndex) : Prog ResourceTables Error TableKey :=
  tableFor p index.ty

def onTable {α : Type} (k : TableKey) (m : Prog ResourceTable Error α) :
    Prog ResourceTables Error α :=
  Prog.zoom (fun s => s.table k) (fun t s => s.setTable k t) m

def resourceNew (p : Parts) (resource : TypedResource) : Prog ResourceTables Error Nat := do
  let k ← tableForResource p resource
  onTable k (ResourceTable.insert (.own resource 0))

def resourceRep (p : Parts) (index : TypedResourceIndex) : Prog ResourceTables Error Nat := do
  let k ← tableForIndex p index
  let s ← Prog.get
  ofExcept ((s.table k).rep index)

def decrementBorrow (scope : Nat) : Prog ResourceTables Error Unit := do
  let s ← Prog.get
  let cx ← Prog.unwrap s.calls.scopes[scope]? (.bounds "scopes")
  if cx.borrowCount = 0 then
    Prog.panic (.overflow "borrow_count")
  else
    let cx' := { cx with borrowCount := cx.borrowCount - 1 }
    Prog.set { s with calls := { scopes := s.calls.scopes.set scope cx' } }

def resourceDrop (p : Parts) (index : TypedResourceIndex) :
    Prog ResourceTables Error (Option Nat) := do
  let k ← tableForIndex p index
  match ← onTable k (ResourceTable.remove index) with
  | .own resource 0 => do
    let rep ← ofExcept (resource.rep index)
    pure (some rep)
  | .own _ (_ + 1) => Prog.err (.msg "cannot remove owned resource while borrowed")
  | .borrow resource scope => do
    let _ ← ofExcept (resource.rep index)
    decrementBorrow scope
    pure none
  | .free _ => Prog.panic (.unreachable "resource_drop")

def resourceLowerOwn (p : Parts) (resource : TypedResource) : Prog ResourceTables Error Nat := do
  let k ← tableForResource p resource
  onTable k (ResourceTable.insert (.own resource 0))

def resourceLiftOwn (p : Parts) (index : TypedResourceIndex) : Prog ResourceTables Error Nat := do
  let k ← tableForIndex p index
  match ← onTable k (ResourceTable.remove index) with
  | .own resource 0 => ofExcept (resource.rep index)
  | .own _ (_ + 1) => Prog.err (.msg "cannot remove owned resource while borrowed")
  | .borrow _ _ => Prog.err (.msg "cannot lift own resource from a borrow")
  | .free _ => Prog.panic (.unreachable "resource_lift_own")

def lastScope : Prog ResourceTables Error CallContext := do
  let s ← Prog.get
  Prog.unwrap s.calls.scopes.getLast? (.unwrap "scopes.last_mut")

def setLastScope (cx : CallContext) : Prog ResourceTables Error Unit :=
  Prog.modify (fun s => { s with calls := s.calls.setLast cx })

def resourceLiftBorrow (p : Parts) (index : TypedResourceIndex) :
    Prog ResourceTables Error Nat := do
  let k ← tableForIndex p index
  match ← onTable k (ResourceTable.getMut index) with
  | .own resource lendCount => do
    let rep ← ofExcept (resource.rep index)
    let n ← Prog.unwrap (checkedAdd lendCount 1) (.unwrap "lend_count")
    onTable k (ResourceTable.setSlot index (.own resource n))
    let scope ← lastScope
    setLastScope { scope with lenders := scope.lenders ++ [index] }
    pure rep
  | .borrow resource _ => ofExcept (resource.rep index)
  | .free _ => Prog.panic (.unreachable "resource_lift_borrow")

def resourceLowerBorrow (p : Parts) (resource : TypedResource) :
    Prog ResourceTables Error Nat := do
  let s ← Prog.get
  if s.calls.scopes.length = 0 then
    Prog.panic (.overflow "scopes.len() - 1")
  else
    let cx ← lastScope
    let n ← Prog.unwrap (checkedAdd cx.borrowCount 1) (.unwrap "borrow_count")
    setLastScope { cx with borrowCount := n }
    let k ← tableForResource p resource
    onTable k (ResourceTable.insert (.borrow resource (s.calls.scopes.length - 1)))

def enterCall : Prog ResourceTables Error Unit :=
  Prog.modify (fun s => { s with calls := s.calls.push default })

/-- The loop of `exit_call` over the lenders of the scope that ends. -/
def returnLends (p : Parts) : List TypedResourceIndex → Prog ResourceTables Error Unit
  | [] => pure ()
  | lender :: rest => do
    let k ← tableForIndex p lender
    match ← Prog.expect (onTable k (ResourceTable.getMut lender))
        (.unwrap "exit_call: get_mut") with
    | .own resource lendCount =>
      if lendCount = 0 then
        Prog.panic (.overflow "exit_call: lend_count")
      else do
        onTable k (ResourceTable.setSlot lender (.own resource (lendCount - 1)))
        returnLends p rest
    | _ => Prog.panic (.unreachable "exit_call")

def exitCall (p : Parts) : Prog ResourceTables Error Unit := do
  let s ← Prog.get
  match s.calls.pop with
  | none => Prog.panic (.unwrap "scopes.pop")
  | some (cx, calls) => do
    Prog.set { s with calls }
    if cx.borrowCount > 0 then
      Prog.err (.msg "borrow handles still remain at the end of the call")
    else
      returnLends p cx.lenders

/-! ### One of the operations -/

inductive Op where
  | resourceNew (p : Parts) (resource : TypedResource)
  | resourceRep (p : Parts) (index : TypedResourceIndex)
  | resourceDrop (p : Parts) (index : TypedResourceIndex)
  | resourceLowerOwn (p : Parts) (resource : TypedResource)
  | resourceLiftOwn (p : Parts) (index : TypedResourceIndex)
  | resourceLiftBorrow (p : Parts) (index : TypedResourceIndex)
  | resourceLowerBorrow (p : Parts) (resource : TypedResource)
  | enterCall
  | exitCall (p : Parts)

/-- Run an operation; the result is the handle or rep it returns, if any. -/
def Op.exec : Op → Prog ResourceTables Error (Option Nat)
  | resourceNew p r => do pure (some (← ResourceTables.resourceNew p r))
  | resourceRep p i => do pure (some (← ResourceTables.resourceRep p i))
  | resourceDrop p i => ResourceTables.resourceDrop p i
  | resourceLowerOwn p r => do pure (some (← ResourceTables.resourceLowerOwn p r))
  | resourceLiftOwn p i => do pure (some (← ResourceTables.resourceLiftOwn p i))
  | resourceLiftBorrow p i => do pure (some (← ResourceTables.resourceLiftBorrow p i))
  | resourceLowerBorrow p r => do pure (some (← ResourceTables.resourceLowerBorrow p r))
  | enterCall => do ResourceTables.enterCall; pure none
  | exitCall p => do ResourceTables.exitCall p; pure none

end ResourceTables

end Wasmtime.Resources
