/-
# QuestScript.Module.Component -- components that implement services

A component has a name people know it by, a description, and methods that have the same.
The service that a component implements may be attached to it.
-/
import QuestScript.Module.Basic

namespace QuestScript

set_option autoImplicit false

/-- What is told of a method. -/
structure MethodDescription where
  displayName : String
  description : String
deriving DecidableEq, Repr

/-- What is told of a component. -/
structure Component where
  displayName : String
  description : String
  methods : List MethodDescription
  service : Option Service

namespace Component

/-- A component without methods and service. -/
def named (displayName description : String) : Component :=
  ⟨displayName, description, [], none⟩

/-- Add a method behind the others. -/
def withMethod (c : Component) (method : MethodDescription) : Component :=
  { c with methods := c.methods ++ [method] }

/-- Attach a service in place of any earlier one. -/
def attach (c : Component) (service : Service) : Component := { c with service := some service }

/-- The first method with a name. -/
def method? (c : Component) (displayName : String) : Option MethodDescription :=
  c.methods.find? fun method => method.displayName = displayName

end Component

end QuestScript
