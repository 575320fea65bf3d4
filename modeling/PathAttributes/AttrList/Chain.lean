import PathAttributes.AttrList.Basic

namespace PathAttributes

/-- Lists of attributes from the highest to the lowest priority; an attribute hides those of its id
further down. -/
abbrev Chain := List AttrList

namespace Chain

def find? (c : Chain) (id : AttrId) : Option Attr := c.findSome? (·.find? id)

def merge (c : Chain) : AttrList := ⟨AttrList.firsts (c.flatMap (·.attrs)), true⟩

end Chain

end PathAttributes
