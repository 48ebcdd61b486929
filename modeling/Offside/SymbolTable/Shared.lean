-- SUMMARY: Interning by many callers that share one table, step by step.
import Offside.SymbolTable

/-! # Shared symbol tables

A call that interns a text takes one or two steps. It looks for the text, and
returns if the table has it. Otherwise it adds the text, unless another caller
has done so in between. A step is never interrupted, but the steps of different
callers may follow one another in any order. -/

namespace Offside

/-- What a table of type `σ` with symbols of type `κ` offers to callers. -/
structure SymbolStore (σ κ : Type) where
  empty : σ
  lookup? : σ → String → Option κ
  /-- The symbol of a text, which is added if the table does not have it. -/
  intern : σ → String → κ × σ
  resolve? : σ → κ → Option String
  size : σ → Nat

/-- A table of this library as a store. -/
def SymbolTable.store : SymbolStore SymbolTable Symbol :=
  ⟨empty, lookup?, intern, resolve?, size⟩

/-- A call that has returned. -/
structure Interned (κ : Type) where
  text : String
  symbol : κ
  deriving DecidableEq, Repr

/-- A table and where its callers are. -/
structure SharedTable (σ κ Caller : Type) where
  table : σ
  /-- The text that a caller has looked for in vain and is going to add. -/
  missed : Caller → Option String
  /-- The calls that have returned, the last one first. -/
  returned : List (Interned κ)

/-- One step of one caller. -/
inductive InternStep (Caller : Type) where
  | look (caller : Caller) (text : String)
  | add (caller : Caller)
  deriving DecidableEq, Repr

namespace SymbolStore

variable {σ κ Caller : Type} [DecidableEq Caller]

/-- No text and no call yet. -/
def start (store : SymbolStore σ κ) : SharedTable σ κ Caller := ⟨store.empty, fun _ => none, []⟩

/-- After one step. A caller that has still to add a text does not start another
call, and one that has nothing to add does not add. -/
def step (store : SymbolStore σ κ) (s : SharedTable σ κ Caller) :
    InternStep Caller → SharedTable σ κ Caller
  | .look caller text =>
    match s.missed caller, store.lookup? s.table text with
    | some _, _ => s
    | none, some symbol => { s with returned := ⟨text, symbol⟩ :: s.returned }
    | none, none => { s with missed := fun c => if c = caller then some text else s.missed c }
  | .add caller =>
    match s.missed caller with
    | none => s
    | some text =>
      let (symbol, table) := store.intern s.table text
      ⟨table, fun c => if c = caller then none else s.missed c, ⟨text, symbol⟩ :: s.returned⟩

/-- After several steps. -/
def run (store : SymbolStore σ κ) (s : SharedTable σ κ Caller) (steps : List (InternStep Caller)) :
    SharedTable σ κ Caller :=
  steps.foldl store.step s

end SymbolStore

end Offside
