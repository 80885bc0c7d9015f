import Libparc.References

/-! # parc_Object: the reference count

Acquiring and releasing an object, over the objects in memory. -/
namespace Libparc.Object
open References Store

variable {β σ : Type}

def parcObjectAcquire (objects : Store (Counted β)) (p : Ptr) : Prog (Store (Counted β)) :=
  objects.write p fun o => { o with references := o.references + 1 }

/-- The objects are part of a state, which the destructor of the object's descriptor may change;
it says whether the object is to be deallocated. -/
def parcObjectRelease (objects : σ → Store (Counted β)) (set : σ → Store (Counted β) → σ)
    (destructor : σ → Ptr → Prog (Bool × σ)) (s : σ) (p : Ptr) : Prog σ := do
  let object ← (objects s).read p
  if object.references = 0 then
    throw (.illegalValue s!"PARCObject@{p} references must be > 0")
  else
    let lowered ← (objects s).write p fun o => { o with references := o.references - 1 }
    let s := set s lowered
    if object.references - 1 = 0 then
      let (isDestroyed, s) ← destructor s p
      if isDestroyed then pure (set s ((objects s).deallocate p)) else pure s
    else pure s

end Libparc.Object
