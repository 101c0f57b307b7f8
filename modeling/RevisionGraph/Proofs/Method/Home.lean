import RevisionGraph.Method

/-!
# Homes of methods

The type that declares a method follows from the URI of the method alone.
-/

namespace RevisionGraph

/-- The URI of the type that declares a method, if the URI of the method says so. -/
def Uri.home? (uri : Uri) : Option Uri := (Method.plain uri).typeUri.toOption

theorem typeUri_eq (method : Method) : method.typeUri = (Method.plain method.uri).typeUri := rfl

theorem typeUri_eq_ok_iff {method : Method} {home : Uri} :
    method.typeUri = .ok home ↔ method.uri.home? = some home := by
  rw [typeUri_eq, Uri.home?]
  cases (Method.plain method.uri).typeUri <;> simp [Except.toOption]

end RevisionGraph
