import PuppetDocs.Model.Json
import PuppetDocs.Model.Registry

/-
  PuppetDocs.Model.Listing — a registry as text: the JSON list of its objects, in their order.
-/

namespace PuppetDocs.Registry

def toJson (r : Registry) : Json := .array (r.objects.map (·.toJson))

def render (r : Registry) : String := r.toJson.render

/-- The objects that a list written by `toJson` holds. -/
def objectsOfJson? (j : Json) : Option (List CodeObject) := j.asList? CodeObject.ofJson?

end PuppetDocs.Registry
