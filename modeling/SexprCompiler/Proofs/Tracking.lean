import SexprCompiler.Proofs.Registry

/-!
# Emitting with a count of open branches

Statements are emitted under a registry and the number of branches that are open. The number is
raised when a branch is entered and lowered when it is left, with a fault or without, and says
whether a new local is declared in place or ahead of all statements. Emitting in this way finds
what emitting under the registry's scope finds, at the place that the number says. The number is
afterwards what it was, and the registry has changed by requests and declarations only.
-/
namespace SexprCompiler

open Target (Stmt Expr)

/-- A ledger and the number of branches that are open. -/
structure Tracker extends Ledger where
  depth : Nat

def Tracker.place (tracker : Tracker) : Place :=
  if tracker.depth = 0 then .main else .branch

/-- Computations that change a registry, and keep their changes when they fail. -/
abbrev Tracked := EStateM TypeError Tracker

/-- A computation inside a branch, which is left whether there is a fault or not. -/
def Tracked.inBranch {α : Type} (x : Tracked α) : Tracked α := fun tracker =>
  match x { tracker with depth := tracker.depth + 1 } with
  | .ok a inner => .ok a { inner with depth := inner.depth - 1 }
  | .error error inner => .error error { inner with depth := inner.depth - 1 }

namespace Term

open Tracked (inBranch)

def trackValue (term : Term) : Tracked TypedExpr := do
  match (← get).value term with
  | .ok typed => return typed
  | .error error => throw error

/-- An assignment. The first one to a name declares the local, in place or ahead of all. -/
def trackAssign (name : String) (term : Term) (line : Nat) : Tracked Stmt := do
  let typed ← term.trackValue
  let tracker ← get
  match tracker.lookup name with
  | some symbol =>
    if symbol.type = typed.type then return .assign [.ident name] .update [typed.expr]
    else throw (.typeMismatch name symbol.type typed.type)
  | none =>
    if tracker.depth = 0 then
      set { tracker with toLedger := tracker.toLedger.declare name ⟨typed.type, line⟩ }
      return .assign [.ident name] .define [typed.expr]
    else
      set { tracker with toLedger := tracker.toLedger.hoist name ⟨typed.type, line⟩ }
      return .assign [.ident name] .update [typed.expr]

def trackTest (term : Term) : Tracked Expr := do
  let typed ← term.trackValue
  if typed.type = .bool then return typed.expr else throw (.nonBooleanTest typed.type)

/-- A call of a printing routine, whose package is requested first. -/
def trackPrint (routine : Routine) (argument : Term) : Tracked Stmt := do
  modify fun tracker => { tracker with toLedger := tracker.toLedger.request Routine.package }
  let typed ← argument.trackValue
  return .evaluate (.call (.member (.ident Routine.package) routine.member) [typed.expr])

def trackUnused (term : Term) : Tracked Stmt := do
  let typed ← term.trackValue
  return .assign [.ident "_"] .update [typed.expr]

mutual

def track : Term → Tracked (List Stmt)
  | .bool value => return [← trackUnused (.bool value)]
  | .literal kind text => return [← trackUnused (.literal kind text)]
  | .var name => return [← trackUnused (.var name)]
  | .unknown tag line => return [← trackUnused (.unknown tag line)]
  | .assign name value line => return [← trackAssign name value line]
  | .print routine argument => return [← trackPrint routine argument]
  | .seq items => trackAll items
  | .cond test body none => do
    let test ← test.trackTest
    let body ← inBranch (trackAll body)
    return [.branch test body none]
  | .cond test body (some otherwise) => do
    let test ← test.trackTest
    let body ← inBranch (trackAll body)
    let otherwise ← inBranch (trackAll otherwise)
    return [.branch test body (some otherwise)]

def trackAll : List Term → Tracked (List Stmt)
  | [] => return []
  | term :: terms => do
    let first ← term.track
    let others ← trackAll terms
    return first ++ others

end

end Term

/-! ## Tracked and untracked -/

namespace Tracked

variable {α β : Type}

/-- Results that agree: the same value or the same fault, and a registry that represents the scope.
The depth is the one before, and requests and declarations are all that has changed the ledger. -/
inductive Agrees (tracker : Tracker) :
    EStateM.Result TypeError Tracker α → EStateM.Result TypeError Scope α → Prop where
  | ok {a ledger scope} (changes : Ledger.Changes tracker.toLedger ledger)
      (represents : ledger.Represents scope) :
      Agrees tracker (.ok a ⟨ledger, tracker.depth⟩) (.ok a scope)
  | error {error ledger scope} (changes : Ledger.Changes tracker.toLedger ledger)
      (represents : ledger.Represents scope) :
      Agrees tracker (.error error ⟨ledger, tracker.depth⟩) (.error error scope)

/-- A tracked computation does what another one does at the current place. -/
def Follows (x : Tracked α) (y : Place → Emit α) : Prop :=
  ∀ (tracker : Tracker) (scope : Scope), tracker.Represents scope →
    Agrees tracker (x tracker) (y tracker.place scope)

theorem get_bind (f : Tracker → Tracked α) (tracker : Tracker) :
    (get >>= f) tracker = f tracker tracker := rfl

theorem Follows.pure (a : α) : Follows (pure a) (fun _ => pure a) :=
  fun _ _ h => .ok .none h

theorem Follows.throw (error : TypeError) :
    Follows (throw error : Tracked α) (fun _ => throw error) :=
  fun _ _ h => .error .none h

theorem Follows.bind {x : Tracked α} {y : Place → Emit α} {f : α → Tracked β}
    {g : α → Place → Emit β} (hx : Follows x y) (hf : ∀ a, Follows (f a) (g a)) :
    Follows (x >>= f) (fun place => y place >>= fun a => g a place) := by
  intro tracker scope h
  have hagrees := hx tracker scope h
  simp only [Bind.bind, EStateM.bind]
  generalize x tracker = result at hagrees
  generalize y tracker.place scope = plain at hagrees
  cases hagrees with
  | error changes represents => exact .error changes represents
  | @ok a ledger after changes represents =>
    -- the rest starts at the same depth, so at the same place
    have hrest : Agrees ⟨ledger, tracker.depth⟩ (f a ⟨ledger, tracker.depth⟩)
      (g a tracker.place after) := hf a _ _ represents
    dsimp only
    generalize f a ⟨ledger, tracker.depth⟩ = result at hrest
    generalize g a tracker.place after = plain at hrest
    cases hrest with
    | ok changes' represents' => exact .ok (changes.trans changes') represents'
    | error changes' represents' => exact .error (changes.trans changes') represents'

/-- A branch is entered at any place, and is left to the depth at which it was entered. -/
theorem Follows.inBranch {x : Tracked α} {y : Place → Emit α} (hx : Follows x y) :
    Follows (inBranch x) (fun _ => y .branch) := by
  intro tracker scope h
  have hinner : Agrees { tracker with depth := tracker.depth + 1 }
    (x { tracker with depth := tracker.depth + 1 }) (y .branch scope) := hx _ scope h
  unfold Tracked.inBranch
  dsimp only
  generalize x { tracker with depth := tracker.depth + 1 } = result at hinner
  generalize y .branch scope = plain at hinner
  cases hinner with
  | ok changes represents => exact .ok changes represents
  | error changes represents => exact .error changes represents

end Tracked

namespace Term

open Tracked (Follows Agrees)

theorem trackValue_of_ok {term : Term} {tracker : Tracker} {typed : TypedExpr}
    (h : tracker.value term = .ok typed) : term.trackValue tracker = .ok typed tracker := by
  rw [trackValue, Tracked.get_bind, h]
  rfl

theorem trackValue_of_error {term : Term} {tracker : Tracker} {error : TypeError}
    (h : tracker.value term = .error error) : term.trackValue tracker = .error error tracker := by
  rw [trackValue, Tracked.get_bind, h]
  rfl

theorem follows_value (term : Term) : Follows term.trackValue (fun _ => term.emitValue) := by
  intro tracker scope h
  have hvalue : tracker.value term = term.value scope := h.value term
  dsimp only
  cases hplain : term.value scope with
  | ok typed =>
    rw [trackValue_of_ok (hvalue.trans hplain), emitValue_eq_ok.mpr ⟨hplain, rfl⟩]
    exact .ok .none h
  | error error =>
    rw [trackValue_of_error (hvalue.trans hplain), emitValue_of_error hplain]
    exact .error .none h

theorem follows_test (term : Term) : Follows term.trackTest (fun _ => term.emitTest) := by
  refine (follows_value term).bind fun typed => ?_
  by_cases hbool : typed.type = .bool
  · simp only [hbool, if_true]
    exact .pure _
  · simp only [hbool, if_false]
    exact .throw _

theorem follows_unused (term : Term) : Follows term.trackUnused (fun _ => term.emitUnused) :=
  (follows_value term).bind fun _ => .pure _

theorem follows_print (routine : Routine) (argument : Term) :
    Follows (trackPrint routine argument) (fun _ => emitPrint routine argument) := by
  have hrequest : Follows
      (modify fun tracker => { tracker with toLedger := tracker.toLedger.request Routine.package })
      (fun _ => modify (·.addImport Routine.package)) :=
    fun _ _ h => .ok (.request .none _) (h.addImport _)
  exact hrequest.bind fun _ => (follows_value argument).bind fun _ => .pure _

theorem follows_assign (name : String) (value : Term) (line : Nat) :
    Follows (trackAssign name value line) (fun place => emitAssign place name value line) := by
  refine (follows_value value).bind fun typed => ?_
  intro tracker scope h
  dsimp only
  rw [Tracked.get_bind, Emit.get_bind]
  have hlookup : tracker.lookup name = (scope.find? name).map Local.symbol := h.lookup name
  cases hfound : scope.find? name with
  | some entry =>
    rw [hfound, Option.map_some] at hlookup
    simp only [hlookup]
    by_cases htype : entry.type = typed.type
    · have hsymbol : entry.symbol.type = typed.type := htype
      rw [if_pos hsymbol, if_pos htype]
      exact .ok .none h
    · have hsymbol : ¬entry.symbol.type = typed.type := htype
      rw [if_neg hsymbol, if_neg htype]
      exact .error .none h
  | none =>
    rw [hfound, Option.map_none] at hlookup
    simp only [hlookup]
    by_cases hdepth : tracker.depth = 0
    · have hplace : tracker.place = .main := if_pos hdepth
      rw [if_pos hdepth, hplace]
      exact .ok (.declare .none _ _) (h.register ⟨name, typed.type, line, false⟩)
    · have hplace : tracker.place = .branch := if_neg hdepth
      rw [if_neg hdepth, hplace]
      exact .ok (.hoist .none _ _) (h.register ⟨name, typed.type, line, true⟩)

mutual

theorem follows_track : (term : Term) → Follows term.track (fun place => term.emit place)
  | .bool value => by
    simp only [track, emit]
    exact (follows_unused (.bool value)).bind fun _ => .pure _
  | .literal kind text => by
    simp only [track, emit]
    exact (follows_unused (.literal kind text)).bind fun _ => .pure _
  | .var name => by
    simp only [track, emit]
    exact (follows_unused (.var name)).bind fun _ => .pure _
  | .unknown tag line => by
    simp only [track, emit]
    exact (follows_unused (.unknown tag line)).bind fun _ => .pure _
  | .assign name value line => by
    simp only [track, emit]
    exact (follows_assign name value line).bind fun _ => .pure _
  | .print routine argument => by
    simp only [track, emit]
    exact (follows_print routine argument).bind fun _ => .pure _
  | .seq items => by
    simp only [track, emit]
    exact follows_trackAll items
  | .cond test body none => by
    simp only [track, emit]
    exact (follows_test test).bind fun _ => (follows_trackAll body).inBranch.bind fun _ => .pure _
  | .cond test body (some otherwise) => by
    simp only [track, emit]
    exact (follows_test test).bind fun _ => (follows_trackAll body).inBranch.bind fun _ =>
      (follows_trackAll otherwise).inBranch.bind fun _ => .pure _

/-- Counting branches gives every statement the place that it has. -/
theorem follows_trackAll :
    (terms : List Term) → Follows (trackAll terms) (fun place => emitAll place terms)
  | [] => by
    simp only [trackAll, emitAll]
    exact .pure []
  | term :: terms => by
    simp only [trackAll, emitAll]
    exact (follows_track term).bind fun _ => (follows_trackAll terms).bind fun _ => .pure _

end

end Term

end SexprCompiler
