import HtmlQuery.Command.Run
import HtmlQuery.Proofs.Json.WrittenValues
import HtmlQuery.Proofs.Markup.OpenElements
import HtmlQuery.Proofs.Selector.Searches

/-!
# What the command answers

The configuration says how elements are looked up, and the options `--json` and `--tree` say how they are shown. Neither
has a part in which elements these are.

* `Selector.search_ofTree` — a search finds the same under every configuration;
* `IsAnswer` — the elements that a search lists, or the failure to find its scope;
* `listing`, `report` — the list on a terminal, character by character, and the value of a report;
* `Shows` — an outcome that shows an answer: its text is that list, or is read as that report;
* `run_shows_answer` — all calls with the same text and the same selectors show the same answer.
-/

namespace HtmlQuery

open HtmlQuery.Tree (root)

variable {t : Tree} {id : NodeId} {config : Config} {context : Option NodeId}

/-! ## Searches under all configurations -/

/-- A search keeps some of the elements below the context, and which ones is not up to the configuration. -/
theorem Selector.exists_nodes_search (wf : t.WellFormed) (s : Selector) (reached : ∀ a ∈ context, t.Reachable a) :
    ∃ p : NodeId → Bool, ∀ config,
      (s.search (.ofTree t config) context).nodes = (t.elementsBelow (context.getD root)).filter p := by
  obtain ⟨_ | c⟩ := s
  · exact ⟨fun _ => false, fun _ => (List.filter_false _).symm⟩
  · exact ⟨_, fun config => c.nodes_search wf config reached⟩

theorem Selector.search_ofTree (wf : t.WellFormed) (s : Selector) (reached : ∀ a ∈ context, t.Reachable a)
    (config config' : Config) : s.search (.ofTree t config) context = s.search (.ofTree t config') context := by
  obtain ⟨p, nodes⟩ := s.exists_nodes_search wf reached
  exact Selection.eq_of_nodes ((nodes config).trans (nodes config').symm)

theorem Selector.isElement_of_mem_search (wf : t.WellFormed) {s : Selector} (reached : ∀ a ∈ context, t.Reachable a)
    (h : id ∈ (s.search (.ofTree t config) context).nodes) : t.isElement id = true := by
  obtain ⟨p, nodes⟩ := s.exists_nodes_search wf reached
  rw [nodes] at h
  exact (wf.mem_elementsBelow_iff.mp (List.mem_filter.mp h).1).2

/-- The document reaches what a search of it finds, so this can be the context of another search. -/
theorem Selector.reachable_of_head?_search (wf : t.WellFormed) {s : Selector}
    (h : (s.search (.ofTree t config) none).nodes.head? = some id) : ∀ a ∈ some id, t.Reachable a := by
  rintro _ ⟨⟩
  have everywhere : ∀ a ∈ none, t.Reachable a := nofun
  obtain ⟨p, nodes⟩ := s.exists_nodes_search wf everywhere
  have mem := List.mem_of_head? h
  rw [nodes] at mem
  exact wf.reachable_iff.mpr (wf.mem_elementsBelow_iff.mp (List.mem_filter.mp mem).1).1.inclusive

/-- The first node that a search of the document lists is the first in the document that it finds. -/
theorem Selector.head?_search (wf : t.WellFormed) (config : Config) (s : Selector) :
    (s.search (.ofTree t config) none).nodes.head? =
      (t.descendants root).find? (s.search (.ofTree t config) none).contains := by
  have everywhere : ∀ a ∈ none, t.Reachable a := nofun
  obtain ⟨p, nodes⟩ := s.exists_nodes_search wf everywhere
  have found := nodes config
  rw [Option.getD_none, Tree.elementsBelow, List.filter_filter] at found
  rw [← List.head?_filter, found]
  congr 1
  refine List.filter_congr fun id mem => ?_
  rw [Selection.contains, found, List.contains_eq_mem, Bool.eq_iff_iff, decide_eq_true_iff, List.mem_filter,
    and_iff_right mem]

namespace Command

/-! ## Answers -/

/-- The elements are those of the nodes, in the same order. -/
def Lists (t : Tree) (ids : List NodeId) (found : List (NodeId × Element)) : Prop :=
  found.map Prod.fst = ids ∧ ∀ x ∈ found, t.element? x.1 = some x.2

theorem lists_elementsAt {ids : List NodeId} (h : ∀ id ∈ ids, t.isElement id = true) :
    Lists t ids (elementsAt t ids) := by
  constructor
  · induction ids with
    | nil => rfl
    | cons id ids ih =>
      obtain ⟨e, he⟩ := Option.isSome_iff_exists.mp (h id List.mem_cons_self)
      rw [elementsAt, List.filterMap_cons_some (by rw [he]; rfl), List.map_cons]
      exact congrArg (id :: ·) (ih fun x hx => h x (List.mem_cons_of_mem _ hx))
  · intro found mem
    obtain ⟨id, -, eq⟩ := List.mem_filterMap.mp mem
    obtain ⟨e, he, rfl⟩ := Option.map_eq_some_iff.mp eq
    exact he

theorem Lists.eq_elementsAt {ids : List NodeId} {found : List (NodeId × Element)} (h : Lists t ids found) :
    found = elementsAt t ids := by
  obtain ⟨rfl, elements⟩ := h
  induction found with
  | nil => rfl
  | cons x found ih =>
    obtain ⟨own, others⟩ := List.forall_mem_cons.mp elements
    rw [elementsAt, List.map_cons, List.filterMap_cons_some (by rw [own]; rfl)]
    exact congrArg (x :: ·) (ih others)

/-- The elements that a search finds with their nodes, or why there is no answer. -/
abbrev Answer := Except Failure (List (NodeId × Element))

/-- What a search answers: the elements that the selector finds in the whole document, those that it finds below the
first element in document order that the selector of the scope finds, or a failure if that finds nothing. -/
inductive IsAnswer (f : Finder) (s : Selector) : Option Selector → Answer → Prop
  | everywhere {found : List (NodeId × Element)} :
      Lists f.tree (s.search f none).nodes found → IsAnswer f s none (.ok found)
  | below {within : Selector} {whole : List NodeId} {scope : NodeId} {found : List (NodeId × Element)} :
      f.tree.DocumentOrder (f.tree.children root) whole → whole.find? (within.search f none).contains = some scope →
      Lists f.tree (s.search f (some scope)).nodes found → IsAnswer f s (some within) (.ok found)
  | nowhere {within : Selector} :
      (within.search f none).nodes = [] → IsAnswer f s (some within) (.error (.noScope within))

/-- A search has one answer. -/
theorem IsAnswer.unique {f : Finder} {s : Selector} {within : Option Selector} {a b : Answer}
    (ha : IsAnswer f s within a) (hb : IsAnswer f s within b) : a = b := by
  cases ha with
  | everywhere lists =>
    cases hb with
    | everywhere lists' => rw [lists.eq_elementsAt, lists'.eq_elementsAt]
  | below whole first lists =>
    cases hb with
    | below whole' first' lists' =>
      cases whole.unique whole'
      cases first.symm.trans first'
      rw [lists.eq_elementsAt, lists'.eq_elementsAt]
    | nowhere none =>
      have mem := List.find?_some first
      rw [Selection.contains, none] at mem
      cases mem
  | nowhere none =>
    cases hb with
    | below _ first _ =>
      have mem := List.find?_some first
      rw [Selection.contains, none] at mem
      cases mem
    | nowhere _ => rfl

/-- The answer of a search of the command. -/
def answerOf (f : Finder) (s : Selector) (within : Option Selector) : Answer :=
  (Request.search f s within).map fun found => elementsAt f.tree found.nodes

/-- A search of the command is a search in a context that the document reaches. -/
theorem exists_context_of_search (wf : t.WellFormed) {s : Selector} {within : Option Selector} {found : Selection}
    (h : Request.search (.ofTree t config) s within = .ok found) :
    ∃ context, (∀ a ∈ context, t.Reachable a) ∧ found = s.search (.ofTree t config) context := by
  cases within with
  | none => exact ⟨none, nofun, (Except.ok.inj h).symm⟩
  | some within =>
    rw [Request.search] at h
    split at h
    case h_1 scope head => exact ⟨some scope, Selector.reachable_of_head?_search wf head, (Except.ok.inj h).symm⟩
    case h_2 => cases h

theorem lists_of_search (wf : t.WellFormed) {s : Selector} {within : Option Selector} {found : Selection}
    (h : Request.search (.ofTree t config) s within = .ok found) : Lists t found.nodes (elementsAt t found.nodes) := by
  obtain ⟨context, reached, rfl⟩ := exists_context_of_search wf h
  exact lists_elementsAt fun _ => Selector.isElement_of_mem_search wf reached

theorem isAnswer_answerOf (wf : t.WellFormed) (config : Config) (s : Selector) (within : Option Selector) :
    IsAnswer (.ofTree t config) s within (answerOf (.ofTree t config) s within) := by
  have everywhere : ∀ a ∈ none, t.Reachable a := nofun
  cases within with
  | none => exact .everywhere (lists_elementsAt fun _ => Selector.isElement_of_mem_search wf everywhere)
  | some within =>
    have first := within.head?_search wf config
    rw [answerOf, Request.search]
    cases head : (within.search (.ofTree t config) none).nodes.head? with
    | none => exact .nowhere (List.head?_eq_none_iff.mp head)
    | some scope =>
      have reached := Selector.reachable_of_head?_search wf head
      exact .below (wf.documentOrder_descendants root) (first.symm.trans head)
        (lists_elementsAt fun _ => Selector.isElement_of_mem_search wf reached)

theorem answerOf_ofTree (wf : t.WellFormed) (s : Selector) (within : Option Selector) (config config' : Config) :
    answerOf (.ofTree t config) s within = answerOf (.ofTree t config') s within := by
  have everywhere : ∀ a ∈ none, t.Reachable a := nofun
  refine congrArg (Except.map fun found : Selection => elementsAt t found.nodes) ?_
  cases within with
  | none => exact congrArg Except.ok (s.search_ofTree wf everywhere config config')
  | some within =>
    rw [Request.search, Request.search, within.search_ofTree wf everywhere config config']
    cases head : (within.search (.ofTree t config') none).nodes.head? with
    | none => rfl
    | some scope =>
      exact congrArg Except.ok (s.search_ofTree wf (Selector.reachable_of_head?_search wf head) config config')

/-! ## Shown answers -/

/-- A list on a terminal. An element has a line with its node at the end of five columns and with its start tag, and the
last line says how many elements these are. -/
def listing (found : List (NodeId × Element)) : String :=
  String.join (found.map fun (node, e) => "\x1b[2m" ++ String.ofList ((toString node).toList.leftpad 5 ' ')
      ++ "\x1b[0m \x1b[36m" ++ e.startTag ++ "\x1b[39m\n")
    ++ "\x1b[32m" ++ toString found.length ++ (if found.length = 1 then " match" else " matches") ++ "\x1b[39m\n"

/-- A report of a search. -/
def report (s : Selector) (found : List (NodeId × Element)) : Json String :=
  .object [("selector", .string s.text),
    ("matches", .array (found.map fun (node, e) => .object [("node", .number (toString node)), ("tag", .string e.tag),
      ("attributes", .object (e.attributes.toList.map fun (name, value) => (name, .string value)))]))]

/-- What stands in front of an answer. -/
def heading (t : Tree) (tree : Bool) : String :=
  if tree then "\x1b[1m=== DOM Tree ===\x1b[0m\n" ++ t.outline root ++ "\n" else ""

/-- The outcome shows the answer. Behind `front`, the output is the list, or it is a text that is read as the report.
Without elements to show, it is `front` alone. -/
def Shows (s : Selector) (front : String) (json : Bool) (outcome : Outcome) : Answer → Prop
  | .ok found => ∃ text, outcome = ⟨0, front ++ text, ""⟩ ∧
      if json then Json.parse? text = some ((report s found).map some) else text = listing found
  | .error failure => outcome = ⟨1, front, "Error: " ++ failure.message ++ "\n"⟩

theorem styled_eq (on off : Nat) (s : String) :
    styled on off s = ("\x1b[" ++ toString on ++ "m") ++ s ++ ("\x1b[" ++ toString off ++ "m") := by
  simp only [styled, String.append_assoc]

theorem padded_eq (n : Nat) : padded n = String.ofList ((toString n).toList.leftpad 5 ' ') := by
  rw [padded, List.leftpad, String.ofList_append, String.ofList_toList, String.length_toList]

theorem matchLine_eq (node : NodeId) (e : Element) :
    matchLine node e = "\x1b[2m" ++ String.ofList ((toString node).toList.leftpad 5 ' ') ++ "\x1b[0m \x1b[36m"
      ++ e.startTag ++ "\x1b[39m\n" := by
  have number : dimmed (padded node) = "\x1b[2m" ++ padded node ++ "\x1b[0m" := styled_eq 2 0 _
  have tag : cyan e.startTag = "\x1b[36m" ++ e.startTag ++ "\x1b[39m" := styled_eq 36 39 _
  have codes : "\x1b[0m \x1b[36m" = "\x1b[0m" ++ " " ++ "\x1b[36m" := rfl
  have ending : "\x1b[39m\n" = "\x1b[39m" ++ "\n" := rfl
  rw [matchLine, number, tag, padded_eq, codes, ending]
  simp only [String.append_assoc]

theorem matchText_eq {found : Selection} (lists : Lists t found.nodes (elementsAt t found.nodes)) :
    matchText t found = listing (elementsAt t found.nodes) := by
  have size : (elementsAt t found.nodes).length = found.size := by
    rw [← List.length_map (f := Prod.fst), lists.1, Selection.size]
  have count : green (countText found.size) = "\x1b[32m" ++ countText found.size ++ "\x1b[39m" := styled_eq 32 39 _
  have ending : "\x1b[39m\n" = "\x1b[39m" ++ "\n" := rfl
  rw [matchText, listing, size, count, countText, ending]
  simp only [matchLine_eq, ending, String.append_assoc]

theorem treeText_eq (t : Tree) : treeText t = "\x1b[1m=== DOM Tree ===\x1b[0m\n" ++ t.outline root ++ "\n" := rfl

theorem hasNaturals_matchValue (node : NodeId) (e : Element) : (matchValue node e).HasNaturals := by
  refine .object ?_
  simp only [List.forall_mem_cons]
  refine ⟨.number _, .string _, .object fun m mem => ?_, List.forall_mem_nil _⟩
  obtain ⟨_, -, rfl⟩ := List.mem_map.mp mem
  exact .string _

theorem hasNaturals_report (s : Selector) (found : List (NodeId × Element)) : (report s found).HasNaturals := by
  refine .object ?_
  simp only [List.forall_mem_cons]
  refine ⟨.string _, .array fun v mem => ?_, List.forall_mem_nil _⟩
  obtain ⟨⟨node, e⟩, -, rfl⟩ := List.mem_map.mp mem
  exact hasNaturals_matchValue node e

/-- The outcome of a call with an answer, in the form that is asked for. -/
def outcome (t : Tree) (s : Selector) (tree json : Bool) : Answer → Outcome
  | .ok found => ⟨0, heading t tree ++ if json then (report s found).pretty ++ "\n" else listing found, ""⟩
  | .error failure => ⟨1, heading t tree, "Error: " ++ failure.message ++ "\n"⟩

/-- The arguments are a request to search the text `html`, and all that they name can be read. -/
structure Asks (arguments : List String) (files : Files) (html : String) (s : Selector) (within : Option Selector)
    (config : Config) (r : Request) : Prop where
  request : readArguments arguments = .ok r
  config : r.readConfig files = .ok config
  selector : r.readSelector = .ok s
  within : r.readWithin = .ok within
  document : r.readDocument files = .ok (Tree.parse html)

variable {arguments : List String} {files : Files} {html : String} {s : Selector} {within : Option Selector}
  {r : Request}

theorem answer_eq {found : Selection} (lists : Lists t found.nodes (elementsAt t found.nodes)) :
    r.answer s t found = if r.json then (report s (elementsAt t found.nodes)).pretty ++ "\n"
      else listing (elementsAt t found.nodes) := by
  rw [Request.answer, matchText_eq lists]
  rfl

theorem Asks.execute_eq (h : Asks arguments files html s within config r) : r.execute files =
    match Request.search (.ofTree (.parse html) config) s within with
    | .ok found => ((if r.tree then treeText (.parse html) else "") ++ r.answer s (.parse html) found, none)
    | .error failure => (if r.tree then treeText (.parse html) else "", some failure) := by
  rw [Request.execute, h.config, h.selector, h.within, h.document]
  rfl

/-- A call shows what the search answers. -/
theorem Asks.run_eq (h : Asks arguments files html s within config r) :
    run arguments files = outcome (.parse html) s r.tree r.json (answerOf (.ofTree (.parse html) config) s within) := by
  have wf := Tree.wellFormed_parse html
  rw [run, h.request]
  show r.run files = _
  rw [Request.run, h.execute_eq, answerOf]
  cases result : Request.search (.ofTree (.parse html) config) s within with
  | ok found =>
    show Outcome.mk 0 (_ ++ r.answer s (.parse html) found) "" = _
    rw [answer_eq (lists_of_search wf result), treeText_eq]
    rfl
  | error failure =>
    rw [treeText_eq]
    rfl

theorem shows_outcome (t : Tree) (s : Selector) (tree json : Bool) (answer : Answer) :
    Shows s (heading t tree) json (outcome t s tree json answer) answer := by
  cases answer with
  | error failure => rfl
  | ok found =>
    refine ⟨_, rfl, ?_⟩
    cases json with
    | false => rfl
    | true => exact Json.parse?_pretty_append (hasNaturals_report s found) (by simp)

/-- **All calls with the same text and the same selectors show the same answer**, whatever their configurations are, and
calls that ask for the same form have the same outcome. The answer lists what the selector finds in the scope. On a
terminal it is a list of these elements that ends with their number, and in the other form it is a text that is read as
a report of the same elements in the same order. -/
theorem run_shows_answer (html : String) (s : Selector) (within : Option Selector) :
    (∀ {arguments arguments' : List String} {files files' : Files} {config config' : Config} {r r' : Request},
      Asks arguments files html s within config r → Asks arguments' files' html s within config' r' →
      r.tree = r'.tree → r.json = r'.json → run arguments files = run arguments' files') ∧
    ∃ answer, (∀ config, IsAnswer (.ofTree (.parse html) config) s within answer) ∧
      ∀ {arguments : List String} {files : Files} {config : Config} {r : Request},
        Asks arguments files html s within config r →
        Shows s (heading (.parse html) r.tree) r.json (run arguments files) answer := by
  have wf := Tree.wellFormed_parse html
  have same := answerOf_ofTree wf s within
  refine ⟨fun {_ _ _ _ config config' _ _} asks asks' tree json => ?_,
    answerOf (.ofTree (.parse html) {}) s within, fun config => ?_, fun {_ _ config _} asks => ?_⟩
  · rw [asks.run_eq, asks'.run_eq, tree, json, same config config']
  · rw [same {} config]
    exact isAnswer_answerOf wf config s within
  · rw [asks.run_eq, same config {}]
    exact shows_outcome ..

/-- Every file asks for both indexes. -/
def indexFiles : Files := fun _ => .ok "[\"index\", \"index\"]"

/-- Two paragraphs in a body. -/
def paragraphs : Tree := .parse "<p id=a></p><p></p>"

theorem documentOrder_paragraphs : paragraphs.DocumentOrder (paragraphs.children 3) [4, 5] ∧
    paragraphs.DocumentOrder (paragraphs.children root) [1, 2, 3, 4, 5] := by
  have inBody : paragraphs.DocumentOrder (paragraphs.children 3) [4, 5] := by
    rw [show paragraphs.children 3 = [4, 5] by decide +kernel]
    exact @Tree.DocumentOrder.cons _ 4 [5] [] [5] (Tree.documentOrder_leaf (by decide +kernel))
      (@Tree.DocumentOrder.cons _ 5 [] [] [] (Tree.documentOrder_leaf (by decide +kernel)) .nil)
  have inHtml : paragraphs.DocumentOrder (paragraphs.children 1) [2, 3, 4, 5] := by
    rw [show paragraphs.children 1 = [2, 3] by decide +kernel]
    exact @Tree.DocumentOrder.cons _ 2 [3] [] [3, 4, 5] (Tree.documentOrder_leaf (by decide +kernel))
      (@Tree.DocumentOrder.cons _ 3 [] [4, 5] [] inBody .nil)
  refine ⟨inBody, ?_⟩
  rw [show paragraphs.children root = [1] by decide +kernel]
  exact @Tree.DocumentOrder.cons _ 1 [] [2, 3, 4, 5] [] inHtml .nil

/-- The selector of a tag. -/
def tagOnly (name : String) : ComplexSelector := ⟨[], ⟨[.hasTag name], List.cons_ne_nil _ _⟩⟩

theorem answerOf_paragraphs : answerOf (.ofTree paragraphs {}) ⟨tagOnly "p"⟩ (some ⟨tagOnly "body"⟩) =
    .ok [(4, ⟨"p", .ofList [("id", "a")]⟩), (5, .ofTag "p")] := by
  have wf : paragraphs.WellFormed := Tree.wellFormed_parse _
  obtain ⟨inBody, inRoot⟩ := documentOrder_paragraphs
  have everywhere : ∀ a ∈ none, paragraphs.Reachable a := nofun
  have reached : ∀ a ∈ some 3, paragraphs.Reachable a := by
    rintro _ ⟨⟩
    exact .tail (.single (by decide +kernel : 1 ∈ paragraphs.children root)) (by decide +kernel)
  have body : ((Selector.mk (tagOnly "body")).search (.ofTree paragraphs {}) none).nodes = [3] := by
    refine ((tagOnly "body").nodes_search wf {} everywhere).trans ?_
    rw [Option.getD_none, Tree.elementsBelow, wf.descendants_eq inRoot]
    decide +kernel
  have inside : ((Selector.mk (tagOnly "p")).search (.ofTree paragraphs {}) (some 3)).nodes = [4, 5] := by
    refine ((tagOnly "p").nodes_search wf {} reached).trans ?_
    rw [Option.getD_some, Tree.elementsBelow, wf.descendants_eq inBody]
    decide +kernel
  have elements : elementsAt paragraphs [4, 5] = [(4, ⟨"p", .ofList [("id", "a")]⟩), (5, .ofTag "p")] := by
    decide +kernel
  rw [answerOf, Request.search, body]
  show Except.ok (elementsAt paragraphs ((Selector.mk (tagOnly "p")).search (.ofTree paragraphs {}) (some 3)).nodes) = _
  rw [inside, elements]

theorem asks_paragraphs : Asks ["p", "--html=<p id=a></p><p></p>", "--within", "body"] indexFiles
    "<p id=a></p><p></p>" ⟨tagOnly "p"⟩ (some ⟨tagOnly "body"⟩) {}
    { selector := "p", html := some "<p id=a></p><p></p>", within := some "body" } :=
  ⟨by decide, rfl, rfl, rfl, rfl⟩

theorem asks_paragraphs_indexed :
    Asks ["p", "--html=<p id=a></p><p></p>", "--within", "body", "--json", "-c", "index"] indexFiles
      "<p id=a></p><p></p>" ⟨tagOnly "p"⟩ (some ⟨tagOnly "body"⟩) .indexed
      { selector := "p", html := some "<p id=a></p><p></p>", within := some "body", config := some "index",
        json := true } :=
  ⟨by decide, by decide +kernel, rfl, rfl, rfl⟩

/-- The paragraphs are listed on a terminal, and with the indexes in a report. -/
theorem run_paragraphs :
    run ["p", "--html=<p id=a></p><p></p>", "--within", "body"] indexFiles =
      ⟨0, "\x1b[2m    4\x1b[0m \x1b[36m<p id=\"a\">\x1b[39m\n"
        ++ "\x1b[2m    5\x1b[0m \x1b[36m<p>\x1b[39m\n\x1b[32m2 matches\x1b[39m\n", ""⟩ ∧
    ∃ text,
      run ["p", "--html=<p id=a></p><p></p>", "--within", "body", "--json", "-c", "index"] indexFiles = ⟨0, text, ""⟩ ∧
      text = "\x7b\n  \"selector\": \"p\",\n  \"matches\": [\n"
        ++ "    \x7b\n      \"node\": 4,\n      \"tag\": \"p\",\n      \"attributes\": \x7b\n"
        ++ "        \"id\": \"a\"\n      \x7d\n    \x7d,\n"
        ++ "    \x7b\n      \"node\": 5,\n      \"tag\": \"p\",\n      \"attributes\": \x7b\x7d\n"
        ++ "    \x7d\n  ]\n\x7d\n" ∧
      Json.parse? text = some (.object [(some "selector", .string (some "p")),
        (some "matches", .array [
          .object [(some "node", .number "4"), (some "tag", .string (some "p")),
            (some "attributes", .object [(some "id", .string (some "a"))])],
          .object [(some "node", .number "5"), (some "tag", .string (some "p")),
            (some "attributes", .object [])]])]) := by
  obtain ⟨-, answer, isAnswer, shown⟩ := run_shows_answer "<p id=a></p><p></p>" ⟨tagOnly "p"⟩ (some ⟨tagOnly "body"⟩)
  have wf : paragraphs.WellFormed := Tree.wellFormed_parse _
  have found := isAnswer_answerOf wf {} ⟨tagOnly "p"⟩ (some ⟨tagOnly "body"⟩)
  rw [answerOf_paragraphs] at found
  cases (isAnswer {}).unique found
  obtain ⟨_, list, (rfl : _ = listing _)⟩ := shown asks_paragraphs
  obtain ⟨text, reported, (read : Json.parse? text = _)⟩ := shown asks_paragraphs_indexed
  refine ⟨list.trans (by decide +kernel), text, ?run, ?text, read.trans ?read⟩
  case run => exact reported.trans (congrArg (Outcome.mk 0 · "") String.empty_append)
  case text =>
    have written := asks_paragraphs_indexed.run_eq.trans (congrArg (outcome paragraphs ⟨tagOnly "p"⟩ false true)
      ((answerOf_ofTree wf ⟨tagOnly "p"⟩ (some ⟨tagOnly "body"⟩) .indexed {}).trans answerOf_paragraphs))
    have output : "" ++ text = _ := congrArg Outcome.output (reported.symm.trans written)
    rw [String.empty_append] at output
    rw [output]
    decide +kernel
  case read =>
    have attributes : (Attributes.ofList [("id", "a")]).toList = [("id", "a")] := by decide
    have others : (Selector.mk (tagOnly "p")).text = "p" ∧ Nat.repr 4 = "4" ∧ Nat.repr 5 = "5" ∧
      (Element.ofTag "p").tag = "p" ∧ (Element.ofTag "p").attributes.toList = [] := by decide +kernel
    simpa [report, Json.map, attributes] using others

end Command

end HtmlQuery
