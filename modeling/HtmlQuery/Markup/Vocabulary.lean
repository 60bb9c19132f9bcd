/-!
# Element names with a meaning of their own

Names are compared as they stand: markup is put in lower case before its names are looked up here.
-/

namespace HtmlQuery

/-- Elements whose content is text up to their own end tag. -/
def isRawTextName (name : String) : Bool :=
  ["script", "style", "textarea", "title", "xmp"].contains name

/-- Elements that have no content: their start tag stands for the whole element. -/
def isVoidName (name : String) : Bool :=
  ["area", "base", "br", "col", "embed", "hr", "img", "input", "link", "meta", "source", "track", "wbr"].contains name

/-- Elements that belong to the head when they come before all content of the body. -/
def isHeadName (name : String) : Bool :=
  ["base", "link", "meta", "noscript", "script", "style", "template", "title"].contains name

end HtmlQuery
