import BrokeredCalls.Handler
import BrokeredCalls.Table
import BrokeredCalls.Text.Quoted

/-!
Where services live. A route names the data source of a service and, if it runs here, its handler.
The last registration of a name stands.
-/

namespace BrokeredCalls

structure Route where
  handler : Option Handler
  source : String

def Route.text (r : Route) : String :=
  "Route \x7b handler: " ++ (if r.handler.isSome then "true" else "false")
    ++ ", data_source: " ++ Quoted.encode r.source ++ " \x7d"

structure Registry where
  routes : Table String Route

namespace Registry

def empty : Registry := ⟨.empty⟩

instance : Inhabited Registry := ⟨empty⟩

def register (r : Registry) (source service : String) (h : Handler) : Registry :=
  ⟨r.routes.set service ⟨some h, source⟩⟩

/-- Declares a service that runs elsewhere; a local handler of that name is gone. -/
def route (r : Registry) (service source : String) : Registry :=
  ⟨r.routes.set service ⟨none, source⟩⟩

def resolve (r : Registry) (service : String) : Option Route := r.routes.find? service

def hosts (r : Registry) (source service : String) : Bool :=
  match r.resolve service with
  | some route => route.handler.isSome && route.source == source
  | none => false

def servicesOn (r : Registry) (source : String) : List String :=
  Utf8.ascending (r.routes.keys.filter (r.hosts source))

def sources (r : Registry) : List String :=
  Utf8.ascending (r.routes.entries.map fun e => e.2.source).eraseDups

end Registry
end BrokeredCalls
