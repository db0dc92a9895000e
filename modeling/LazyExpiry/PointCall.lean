import LazyExpiry.Async
import LazyExpiry.Direct

/-!
# The key-value contract

`PointCall κ ν` names the operations of the plain key-value contract with values `ν`, and
`Reply ν` what they answer. There are four ways to carry one out : on a store that
answers at once or later, where `ν` is what the store holds, and on an expiring store
over one, where `ν` is a value or an explicit null.
-/

namespace LazyExpiry

/-- An operation of the key-value contract with values `ν`. -/
inductive PointCall (κ ν : Type) where
  | get (key : κ)
  | put (key : κ) (value : ν)
  | putAll (batch : List (κ × ν))
  | remove (key : κ)
  | contains (key : κ)
  | isEmpty
  | clear

/-- What an operation of the key-value contract answers. -/
inductive Reply (ν : Type) where
  | done
  | flag (b : Bool)
  | found (value : Option ν)

namespace PointCall

variable {σ κ ν α γ π : Type}

/-- Entries that a call writes. -/
def writes : PointCall κ ν → Nat
  | put _ _ => 1
  | putAll batch => batch.length
  | _ => 0

/-- A call on a store that answers at once. -/
def stored [Store σ κ ν γ] : PointCall κ ν → Action σ (Reply ν)
  | get key, w => (Store.get key w).map .found
  | put key value, w => (Store.put key value w).map fun _ => .done
  | putAll batch, w => (Store.putAll batch w).map fun _ => .done
  | remove key, w => (Store.remove key w).map fun _ => .done
  | contains key, w => (Store.contains key w).map .flag
  | isEmpty, w => (Store.isEmpty w).map .flag
  | clear, w => (Store.clear w).map fun _ => .done

/-- The work that a call leaves, with its answer as a reply. -/
def replying {β : Type} (f : β → Reply ν) (called : Deferred σ β × σ) : Deferred σ (Reply ν) × σ :=
  (called.1.map f, called.2)

/-- A call on a store that answers later. -/
def storedLater [AsyncStore σ κ ν π] (c : PointCall κ ν) (w : σ) : Deferred σ (Reply ν) × σ :=
  match c with
  | get key => replying .found (AsyncStore.get key w)
  | put key value => replying (fun _ => .done) (AsyncStore.put key value w)
  | putAll batch => replying (fun _ => .done) (AsyncStore.putAll batch w)
  | remove key => replying (fun _ => .done) (AsyncStore.remove key w)
  | contains key => replying .flag (AsyncStore.contains key w)
  | isEmpty => replying .flag (AsyncStore.isEmpty w)
  | clear => replying (fun _ => .done) (AsyncStore.clear w)

variable [Context σ]

/-- A call on an expiring store that answers at once. -/
def direct [Store σ κ (Stamped α) γ] [Settles (γ × σ) κ α] :
    PointCall κ (Option α) → Action σ (Reply (Option α))
  | get key, w => (Direct.get key w).map .found
  | put key value, w => (Direct.put key value w).map fun _ => .done
  | putAll batch, w => (Direct.putAll batch w).map fun _ => .done
  | remove key, w => (Direct.remove key w).map fun _ => .done
  | contains key, w => (Direct.contains key w).map .flag
  | isEmpty, w => (Direct.isEmpty w).map .flag
  | clear, w => (Direct.clear w).map fun _ => .done

/-- A call on an expiring store that answers later. -/
def async [AsyncStore σ κ (Stamped α) π] (c : PointCall κ (Option α)) (w : σ) :
    Deferred σ (Reply (Option α)) × σ :=
  match c with
  | get key => replying .found (Async.get key w)
  | put key value => replying (fun _ => .done) (Async.put key value w)
  | putAll batch => replying (fun _ => .done) (Async.putAll batch w)
  | remove key => replying (fun _ => .done) (Async.remove key w)
  | contains key => replying .flag (Async.contains key w)
  | isEmpty => replying .flag (Async.isEmpty w)
  | clear => replying (fun _ => .done) (Async.clear w)

end PointCall

end LazyExpiry
