import Schemata.Alias.Subject

/-!
# What categories and features have

The features of categories, of their registers, and of features themselves.
-/

namespace Schemata

namespace Template

open Feature

def categoryDescription : List String :=
  ["type(object) -> the object's type", "type(name, bases, dict, **kwds) -> a new type"]

def categoryFeatures : List Feature :=
  [creation, display,
    ⟨"__call__", .action, some "($self, /, *args, **kwargs)", ["Call self as a function."]⟩,
    access,
    ⟨"__setattr__", .action, some "($self, name, value, /)",
      ["Implement setattr(self, name, value)."]⟩,
    ⟨"__delattr__", .action, some "($self, name, /)", ["Implement delattr(self, name)."]⟩,
    ⟨"__init__", .action, some "($self, /, *args, **kwargs)",
      ["Initialize self.  See help(type(self)) for accurate signature."]⟩,
    binary "__or__" "self|value", binary "__ror__" "value|self",
    method "mro" ["Return a type's method resolution order."],
    method "__subclasses__" ["Return a list of immediate subclasses."],
    ⟨"__prepare__", .shared, none,
      ["__prepare__() -> dict", "used to create the namespace for the class statement"]⟩,
    ⟨"__instancecheck__", .operation, some "($self, instance, /)",
      ["Check if an object is an instance."]⟩,
    ⟨"__subclasscheck__", .operation, some "($self, subclass, /)",
      ["Check if a class is a subclass."]⟩,
    method "__dir__" ["Specialized __dir__ implementation for types."],
    method "__sizeof__" ["Return memory consumption of the type object."], field "__basicsize__",
    field "__itemsize__", field "__flags__", field "__weakrefoffset__", field "__base__",
    field "__dictoffset__", field "__mro__", property "__name__", property "__qualname__",
    property "__bases__", property "__module__", property "__abstractmethods__",
    property "__dict__", property "__doc__", property "__text_signature__",
    property "__annotations__"]

def registerFeatures : List Feature :=
  [creation, display, unary "__str__" "Return str(self).", access] ++ comparisons ++
    [unary "__iter__" "Implement iter(self).", binary "__or__" "self|value",
    binary "__ror__" "value|self", binary "__ior__" "self|=value",
    unary "__len__" "Return len(self).",
    ⟨"__getitem__", .action, some "($self, key, /)", ["Return self[key]."]⟩,
    ⟨"__contains__", .action, some "($self, key, /)", ["Return key in self."]⟩,
    plain "get" ["D.get(k[,d]) -> D[k] if k in D, else d.  d defaults to None."],
    plain "keys" ["D.keys() -> a set-like object providing a view on D's keys"],
    plain "values" ["D.values() -> an object providing a view on D's values"],
    plain "items" ["D.items() -> a set-like object providing a view on D's items"],
    plain "copy" ["D.copy() -> a shallow copy of D"],
    ⟨"__class_getitem__", .shared, none, ["See PEP 585"]⟩,
    plain "__reversed__" ["D.__reversed__() -> reverse iterator"], about,
    ⟨"__hash__", .absent, none, []⟩]

def operationFeatures : List Feature :=
  [display, unary "__hash__" "Return hash(self).",
    ⟨"__call__", .action, some "($self, /, *args, **kwargs)", ["Call self as a function."]⟩,
    access] ++ comparisons ++
    [plain "__reduce__" [], field "__module__", property "__doc__", property "__name__",
    property "__qualname__", property "__self__", property "__text_signature__"]

def actionFeatures : List Feature :=
  [display, unary "__hash__" "Return hash(self).",
    ⟨"__call__", .action, some "($self, /, *args, **kwargs)", ["Call self as a function."]⟩,
    access] ++ comparisons ++
    [plain "__reduce__" [], field "__self__", property "__objclass__", property "__name__",
    property "__qualname__", property "__doc__", property "__text_signature__"]

def operationRuleFeatures : List Feature :=
  [display, ⟨"__call__", .action, some "($self, /, *args, **kwargs)", ["Call self as a function."]⟩,
    access,
    ⟨"__get__", .action, some "($self, instance, owner=None, /)",
      ["Return an attribute of instance, which is of type owner."]⟩,
    plain "__reduce__" [], field "__objclass__", field "__name__", property "__doc__",
    property "__qualname__", property "__text_signature__"]

def actionRuleFeatures : List Feature :=
  [display, ⟨"__call__", .action, some "($self, /, *args, **kwargs)", ["Call self as a function."]⟩,
    access,
    ⟨"__get__", .action, some "($self, instance, owner=None, /)",
      ["Return an attribute of instance, which is of type owner."]⟩,
    plain "__reduce__" [], field "__objclass__", field "__name__", property "__doc__",
    property "__qualname__", property "__text_signature__"]

def sharedRuleFeatures : List Feature :=
  [display, ⟨"__call__", .action, some "($self, /, *args, **kwargs)", ["Call self as a function."]⟩,
    access,
    ⟨"__get__", .action, some "($self, instance, owner=None, /)",
      ["Return an attribute of instance, which is of type owner."]⟩,
    field "__objclass__", field "__name__", property "__doc__", property "__qualname__",
    property "__text_signature__"]

def propertyRuleFeatures : List Feature :=
  [display, access,
    ⟨"__get__", .action, some "($self, instance, owner=None, /)",
      ["Return an attribute of instance, which is of type owner."]⟩,
    ⟨"__set__", .action, some "($self, instance, value, /)",
      ["Set an attribute of instance to value."]⟩,
    ⟨"__delete__", .action, some "($self, instance, /)", ["Delete an attribute of instance."]⟩,
    field "__objclass__", field "__name__", property "__doc__", property "__qualname__"]

def fieldRuleFeatures : List Feature :=
  [display, access,
    ⟨"__get__", .action, some "($self, instance, owner=None, /)",
      ["Return an attribute of instance, which is of type owner."]⟩,
    ⟨"__set__", .action, some "($self, instance, value, /)",
      ["Set an attribute of instance to value."]⟩,
    ⟨"__delete__", .action, some "($self, instance, /)", ["Delete an attribute of instance."]⟩,
    plain "__reduce__" [], field "__objclass__", field "__name__", property "__doc__",
    property "__qualname__"]

end Template

end Schemata
