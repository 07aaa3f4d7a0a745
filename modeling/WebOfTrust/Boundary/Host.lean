import WebOfTrust.Context

/-!
# Contexts behind handles

Callers from outside hold contexts by handles. A host keeps the contexts that it has handed out, in
slots; a slot whose context was released stays empty and is never used again. A program may get the
address of a released context back for a new one, and a handle kept from before then serves the new
one; here a handle names one context for good. A handle may be null, may name a slot that is empty
by now or not yet in use, or may never have come from the host: then no context is touched, and the
caller gets a value that stands for the failure.

* `Handle`, `Host`: `context?`, `isLive`;
* `Host.lend`, `Host.release`: the life of a handle;
* `Host.serve`: a request to the context of a handle;
* `Host.refresh`: the wall clock shows a time.
-/

namespace WebOfTrust

/-- What a caller holds in place of a context. -/
inductive Handle where
  | null
  /-- A handle of the host, perhaps released since. -/
  | slot (n : Nat)
  /-- A value that never was a handle of the host. -/
  | foreign
deriving DecidableEq

/-- The contexts handed out, each in its slot until it is released. -/
structure Host (α : Type) where
  /-- The node that an identity asks for, in every context. -/
  prefer : Identity → NodeId
  slots : List (Option (Context α))

namespace Host

variable {α : Type}

/-- The host that has handed out nothing. -/
def empty (prefer : Identity → NodeId) : Host α := ⟨prefer, []⟩

variable (h : Host α)

/-- The live context of a handle. -/
def context? : Handle → Option (Context α)
  | .slot n => (h.slots[n]?).join
  | .null | .foreign => none

/-- Whether a handle has a live context. -/
def isLive (handle : Handle) : Bool := (h.context? handle).isSome

/-- Hand out a context, in a new slot. The addresses of a program may come back; slots do not. -/
def lend (c : Context α) : Handle × Host α :=
  (.slot h.slots.length, { h with slots := h.slots ++ [some c] })

/-- Put a context, or nothing, into the slot of a handle. -/
def replace (handle : Handle) (c : Option (Context α)) : Host α :=
  match handle with
  | .slot n => { h with slots := h.slots.set n c }
  | .null | .foreign => h

/-- Release the context of a handle, if it has one. -/
def release (handle : Handle) : Host α :=
  if h.isLive handle then h.replace handle none else h

/-- Serve a request to the context of a handle; without a context there is a value to answer. -/
def serve {β : Type} (handle : Handle) (failure : β) (request : Context α → β × Context α) :
    β × Host α :=
  match h.context? handle with
  | some c =>
    let (answer, c') := request c
    (answer, h.replace handle (some c'))
  | none => (failure, h)

/-- The wall clock shows a time, to all contexts alike. -/
def refresh (reading : Instant) : Host α :=
  { h with slots := h.slots.map (Option.map fun c => { c with clock := c.clock.refresh reading }) }

end Host

end WebOfTrust
