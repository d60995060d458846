import MixT.Library.Effects
import MixT.Phase.Ast

/-! # Running a phase

The interpreter of phases. It runs over the values of the host language, a backend of
stores, and the holders of the transaction's variables. Expressions read the variables and
may act on the stores, statements may do both. -/

namespace MixT.Phase

section Actions

/-- An action on the shared state: what lies outside the transaction's variables. -/
abbrev Act (F Sh α : Type) := Library.Eff F Sh α

variable {L V F Sh : Type}

/-- The values of the host language and its operators. -/
structure Host (V F : Type) where
  ofInt : Int → V
  ofBool : Bool → V
  truth : V → Bool
  count : V → Nat
  binOp : BinOperator → V → V → Except F V
  field : V → FieldName → V
  setField : V → FieldName → V → V
  nulled : V → V
  name : V → Nat

/-- What a phase asks of the stores, the tracker and the heap of lists. -/
structure Backend (V F Sh : Type) where
  get : V → Act F Sh V
  put : V → V → Act F Sh Unit
  isValid : V → Act F Sh V
  createNew : V → V → Act F Sh V
  act : OperName → V → List V → Act F Sh V
  readTracking : V → Act F Sh Unit
  accompanyWrite : Nat → V → Act F Sh Unit
  writeTombstone : V → Act F Sh Unit
  generateTombstone : Act F Sh V
  listStub : Act F Sh V
  ensureList : V → Act F Sh Unit
  pushBack : V → V → Act F Sh Unit

end Actions

section Holders

variable {L V F Sh : Type} [Inhabited V] [DecidableEq L]

/-- `type_holder`: every value of a variable, and which of them is the current one. -/
structure TypeHolder (V : Type) where
  t : List V
  currPos : Int

namespace TypeHolder

def empty : TypeHolder V := ⟨[], -1⟩

/-- `push` and `bind`. -/
def push (h : TypeHolder V) (v : V) : TypeHolder V := ⟨h.t ++ [v], h.currPos + 1⟩

def increment (h : TypeHolder V) : TypeHolder V := ⟨h.t, h.currPos + 1⟩

/-- `get`. Outside the vector, whose bounds are asserted only, there is some value. -/
def get (h : TypeHolder V) : V :=
  if 0 ≤ h.currPos then h.t.getD h.currPos.toNat default else default

def beginPhase (h : TypeHolder V) : TypeHolder V := ⟨h.t, -1⟩

end TypeHolder

/-- `value_holder`, `type_holder` and `remote_holder`. -/
inductive Holder (L V : Type)
  | value (t : Option V)
  | type (h : TypeHolder V)
  | remote (handleType : Ty L) (handle : List V) (currPos : Int)

/-- `store`: the holders, and for each type of handle its `remote_map_holder`. -/
structure Mem (L V : Type) where
  holders : VarName → Holder L V
  super : Ty L → Nat → TypeHolder V

namespace Mem

variable (host : Host V F) (backend : Backend V F Sh)

def setHolder (m : Mem L V) (x : VarName) (h : Holder L V) : Mem L V :=
  { m with holders := Function.update m.holders x h }

def setSuper (m : Mem L V) (handleType : Ty L) (name : Nat) (h : TypeHolder V) : Mem L V :=
  { m with super := fun t n => if t = handleType ∧ n = name then h else m.super t n }

/-- `handle[curr_pos]`. -/
def handleAt (handle : List V) (currPos : Int) : V := TypeHolder.get ⟨handle, currPos⟩

/-- `get` of the three holders. -/
def get (m : Mem L V) (x : VarName) : V :=
  match m.holders x with
  | .value t => t.getD default
  | .type h => h.get
  | .remote handleType handle currPos =>
      (m.super handleType (host.name (handleAt handle currPos))).get

/-- `get_remote`. -/
def getRemote (m : Mem L V) (x : VarName) : V :=
  match m.holders x with
  | .remote _ handle currPos => handleAt handle currPos
  | _ => default

/-- `bind` of the three holders. A remote variable fetches its object. -/
def bind (m : Mem L V) (x : VarName) (v : V) : Act F Sh (Mem L V) :=
  match m.holders x with
  | .value _ => pure (m.setHolder x (.value (some v)))
  | .type h => pure (m.setHolder x (.type (h.push v)))
  | .remote handleType handle currPos => do
      let handle' := handle ++ [v]
      let h := handleAt handle' (currPos + 1)
      let o ← backend.get h
      backend.readTracking h
      pure ((m.setHolder x (.remote handleType handle' (currPos + 1))).setSuper handleType
        (host.name h) ((m.super handleType (host.name h)).push o))

/-- `push` of the three holders. A remote variable writes its object. -/
def push (m : Mem L V) (x : VarName) (v : V) : Act F Sh (Mem L V) :=
  match m.holders x with
  | .value _ => pure (m.setHolder x (.value (some v)))
  | .type h => pure (m.setHolder x (.type (h.push v)))
  | .remote handleType handle currPos => do
      let name := host.name (handleAt handle currPos)
      backend.put (handle.getLastD default) v
      pure (m.setSuper handleType name ((m.super handleType name).push v))

/-- `increment`: a remote variable that is bound moves on in the map of its type. -/
def increment (m : Mem L V) (x : VarName) : Mem L V :=
  match m.holders x with
  | .value _ => m
  | .type h => m.setHolder x (.type h.increment)
  | .remote handleType handle currPos =>
      if 0 ≤ currPos then
        let name := host.name (handleAt handle currPos)
        m.setSuper handleType name (m.super handleType name).increment
      else m

/-- `increment_remote`. -/
def incrementRemote (m : Mem L V) (x : VarName) : Mem L V :=
  match m.holders x with
  | .remote handleType handle currPos =>
      (m.setHolder x (.remote handleType handle (currPos + 1))).increment host x
  | _ => m

/-- `RefreshRemoteOccurance`: the object of a handle is fetched into the map of its type. -/
def refresh (m : Mem L V) (handleType : Ty L) (h : V) : Act F Sh (Mem L V) := do
  let o ← backend.get h
  pure (m.setSuper handleType (host.name h) ((m.super handleType (host.name h)).push o))

/-- `begin_phase`. -/
def beginPhase (m : Mem L V) : Mem L V where
  holders x :=
    match m.holders x with
    | .value t => .value t
    | .type h => .type h.beginPhase
    | .remote handleType handle _ => .remote handleType handle (-1)
  super handleType name := (m.super handleType name).beginPhase

end Mem

end Holders

section Eval

variable {L V F Sh : Type} [Inhabited V] (host : Host V F) (backend : Backend V F Sh)
  (rightFirst : List Expr → Bool)

/-- `store::get`: the constants are no variables, and each list stub is a new one. -/
def getVar (m : Mem L V) (x : VarName) : Act F Sh V :=
  if x = Builtin.trueName then pure (host.ofBool true)
  else if x = Builtin.falseName then pure (host.ofBool false)
  else if x = Builtin.listName then backend.listStub
  else pure (m.get host x)

mutual

/-- `run_phase` on expressions. Where the language leaves the order of operands open,
`rightFirst` has the compiler's choice. -/
def eval (m : Mem L V) : Expr → Act F Sh V
  | .varReference x => getVar host backend m x
  | .fieldReference struct f => do
      let s ← eval m struct
      pure (host.field s f)
  | .constant i => pure (host.ofInt i)
  | .binOp .and l r => do
      let lval ← eval m l
      if host.truth lval then
        let rval ← eval m r
        pure (host.ofBool (host.truth rval))
      else pure (host.ofBool false)
  | .binOp .or l r => do
      let lval ← eval m l
      if host.truth lval then pure (host.ofBool true)
      else
        let rval ← eval m r
        pure (host.ofBool (host.truth rval))
  | .binOp .less l r => do
      let lval ← eval m l
      let rval ← eval m r
      Library.Eff.ofExcept (host.binOp .less lval rval)
  | .binOp op l r =>
      if rightFirst [l, r] then do
        let rval ← eval m r
        let lval ← eval m l
        Library.Eff.ofExcept (host.binOp op lval rval)
      else do
        let lval ← eval m l
        let rval ← eval m r
        Library.Eff.ofExcept (host.binOp op lval rval)
  | .generateTombstone => backend.generateTombstone
  | .isValid h => do
      let hndl ← eval m h
      backend.isValid hndl
  | .operation name h args =>
      if name = Builtin.pushBack then do
        let lst ← eval m h
        backend.ensureList lst
        let vs ← evalArgs m args
        backend.pushBack lst (vs.headD default)
        pure default
      else if name = Builtin.nulled then do
        let hndl ← eval m h
        pure (host.nulled hndl)
      else do
        let hndl ← eval m h
        let vs ← (if rightFirst args then evalArgsRight m args else evalArgs m args)
        if name = Builtin.new then backend.createNew hndl (vs.headD default)
        else backend.act name hndl vs

def evalArgs (m : Mem L V) : List Expr → Act F Sh (List V)
  | [] => pure []
  | e :: es => do
      let v ← eval m e
      let vs ← evalArgs m es
      pure (v :: vs)

def evalArgsRight (m : Mem L V) : List Expr → Act F Sh (List V)
  | [] => pure []
  | e :: es => do
      let vs ← evalArgsRight m es
      let v ← eval m e
      pure (v :: vs)

end

end Eval

section Exec

variable {L V F Sh : Type}

/-- How a statement ends early. -/
inductive Signal (V F : Type)
  | returned (v : V)
  | fault (f : F)
  | outOfTurns

/-- A statement acts on the variables and on the shared state. -/
abbrev Exec (L V F Sh α : Type) := Library.Eff (Signal V F) (Mem L V × Sh) α

namespace Exec

/-- An action that reads the variables. -/
def ofAct (a : Mem L V → Act F Sh α) : Exec L V F Sh α :=
  ExceptT.mk fun s =>
    match (a s.1).run s.2 with
    | (.ok v, sh) => (.ok v, s.1, sh)
    | (.error f, sh) => (.error (.fault f), s.1, sh)

/-- An action that changes the variables. A fault leaves them as they were. -/
def change (a : Mem L V → Act F Sh (Mem L V)) : Exec L V F Sh Unit :=
  ExceptT.mk fun s =>
    match (a s.1).run s.2 with
    | (.ok m, sh) => (.ok (), m, sh)
    | (.error f, sh) => (.error (.fault f), s.1, sh)

end Exec

/-- At most `n` turns of a loop, the first at index `i`, where `go` is the value of the
condition. -/
def turns (push : Nat → Exec L V F Sh Unit) (body : Exec L V F Sh Unit)
    (condition : Exec L V F Sh Bool) : Nat → Nat → Bool → Exec L V F Sh Unit
  | _, _, false => pure ()
  | 0, _, true => throw .outOfTurns
  | n + 1, i, true => do
      push (i + 1)
      body
      let go ← condition
      turns push body condition n (i + 1) go

def repeatTurns (body : Exec L V F Sh Unit) : Nat → Exec L V F Sh Unit
  | 0 => pure ()
  | n + 1 => do
      body
      repeatTurns body n

variable [Inhabited V] [DecidableEq L] (host : Host V F) (backend : Backend V F Sh)
  (rightFirst : List Expr → Bool)

/-- `run_phase` on statements, with at most `n` turns in each execution of a loop. -/
def exec (n : Nat) : Stmt L → Exec L V F Sh Unit
  | .letIn x e body => do
      let v ← Exec.ofAct fun m => eval host backend rightFirst m e
      Exec.change fun m => m.bind host backend x v
      exec n body
  | .letRemote x h body => do
      let v ← Exec.ofAct fun m => eval host backend rightFirst m h
      Exec.change fun m => m.bind host backend x v
      exec n body
  | .operation name h args => do
      let _ ← Exec.ofAct fun m => eval host backend rightFirst m (.operation name h args)
      pure ()
  | .assignVar x e => do
      let v ← Exec.ofAct fun m => eval host backend rightFirst m e
      Exec.change fun m => m.push host backend x v
  | .assignField x f e => do
      let strct ← Exec.ofAct fun m => getVar host backend m x
      let v ← Exec.ofAct fun m => eval host backend rightFirst m e
      Exec.change fun m => m.push host backend x (host.setField strct f v)
  | .ret e => do
      let v ← Exec.ofAct fun m => eval host backend rightFirst m e
      throw (.returned v)
  | .accompanyWrite x =>
      Exec.ofAct fun m =>
        backend.accompanyWrite (host.name (m.getRemote x)) (m.get host Builtin.tombstoneName)
  | .writeTombstone x => Exec.ofAct fun m => backend.writeTombstone (m.get host x)
  | .incrementOccurance x => Exec.change fun m => pure (m.increment host x)
  | .incrementRemoteOccurance x => Exec.change fun m => pure (m.incrementRemote host x)
  | .refreshRemoteOccurance handleType x => do
      let h ← Exec.ofAct fun m => getVar host backend m x
      Exec.change fun m => m.refresh host backend handleType h
  | .ifThen c t e => do
      let v ← Exec.ofAct fun m => eval host backend rightFirst m c
      if host.truth v then exec n t else exec n e
  | .whileLoop name c body => do
      Exec.change fun m => m.bind host backend name (host.ofInt 0)
      let condition := do
        let v ← Exec.ofAct fun m => eval host backend rightFirst m c
        pure (host.truth v)
      let go ← condition
      turns (fun i => Exec.change fun m => m.push host backend name (host.ofInt i))
        (exec n body) condition n 0 go
  | .forEach name body => do
      let bound ← Exec.ofAct fun m => getVar host backend m name
      repeatTurns (exec n body) (host.count bound)
  | .nil => pure ()
  | .cons first rest => do
      exec n first
      exec n rest

end Exec

end MixT.Phase
