import Trieste.Ast

namespace Trieste
set_option autoImplicit true

namespace Token

def jsonObject : Token := ⟨"json-object", Flag.symtab⟩
def jsonArray : Token := ⟨"json-array", 0⟩
def jsonString : Token := ⟨"json-string", Flag.print⟩
def jsonNumber : Token := ⟨"json-number", Flag.print⟩
def jsonTrue : Token := ⟨"json-true", 0⟩
def jsonFalse : Token := ⟨"json-false", 0⟩
def jsonNull : Token := ⟨"json-null", 0⟩
def jsonMember : Token := ⟨"json-member", Flag.lookdown⟩
def jsonKey : Token := ⟨"json-key", Flag.print⟩

end Token

namespace Json

/-- `err` of a node, which shows a copy of it. Nothing is returned where the copy is deeper than
the heap. -/
def err (h : Heap) (node : Node) (msg : String) : Option (Heap × Node) := do
  let (h, error) := h.create .error {}
  let (h, errorMsg) := h.create .errorMsg (.ofString msg)
  let h := h.pushBack error (some errorMsg)
  let (h, errorAst) := h.create .errorAst {}
  let (h, copy) ← h.clone (h.nodes.length + 1) node
  let h := h.pushBack errorAst (some copy)
  return (h.pushBack error (some errorAst), error)

/-- `err(type ^ location, msg)` -/
def errAt (h : Heap) (type : Token) (location : Location) (msg : String) : Option (Heap × Node) :=
  let (h, node) := h.create type location
  err h node msg

end Json

end Trieste
