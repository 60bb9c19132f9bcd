import HtmlQuery.Markup.Lexer
import HtmlQuery.Markup.TreeBuilder

/-!
# Documents

* `Tree.parse` — the tree of a document's markup.
-/

namespace HtmlQuery

/-- The tree of a document. Every text is one: what is not well-formed is read as far as it goes. -/
def Tree.parse (html : String) : Tree := Tree.ofTokens (tokenize html)

end HtmlQuery
