import HtmlQuery.Markup.Document
import HtmlQuery.Proofs.Markup.Changes
import HtmlQuery.Proofs.Tree.Appending
import Mathlib.Data.List.Chain

/-!
# Open elements

The open elements of a builder are a path: each is the parent of the one inside it, and the outermost stands in the
document. So content goes to nodes that are there, and the tree is built from the top. The frame says which elements are
at the outer end of the path.

* `Builder.Frame` — how far the frame of the document is, and which of its elements are open;
* `Builder.Sound`, `Sound.change` — what every elementary change keeps;
* `Tree.ofTokens_numbering` — the links of a document and the order of its names.
-/

namespace HtmlQuery

/-! ## Closing -/

section Popping

variable {α : Type} {p : α → Bool} {x : α} {s l : List α}

/-- Popping leaves a list as it is, or what is behind an element with `p`. -/
theorem popThrough_eq_or (p : α → Bool) (l : List α) :
    popThrough p l = l ∨ ∃ x, p x = true ∧ (x :: popThrough p l) <:+ l := by
  unfold popThrough
  split
  · exact .inl rfl
  · rename_i x rest h
    have first := List.head?_dropWhile_not (fun x => !p x) l
    rw [h] at first
    refine .inr ⟨x, by simpa using first, ?_⟩
    rw [← h]
    exact List.dropWhile_suffix _

theorem popThrough_suffix (p : α → Bool) (l : List α) : popThrough p l <:+ l := by
  rcases popThrough_eq_or p l with h | ⟨x, -, h⟩
  · rewrite [h]
    exact List.suffix_rfl
  · exact (List.suffix_cons x _).trans h

/-- What lies behind the first element of an end without `p` stays, and the element with it if it is not popped. -/
theorem suffix_popThrough_or (keep : ∀ y ∈ s, p y = false) (h : (x :: s) <:+ l) :
    (x :: s) <:+ popThrough p l ∨ p x = true ∧ popThrough p l = s := by
  rcases popThrough_eq_or p l with eq | ⟨y, hy, suffix⟩
  · rw [eq]
    exact .inl h
  · have other {y : α} (hy : p y = true) (mem : y ∈ s) : False := by
      rw [keep y mem] at hy
      cases hy
    rcases List.suffix_or_suffix_of_suffix h suffix with h | h
    · rcases List.suffix_cons_iff.mp h with eq | h
      · cases eq
        exact .inr ⟨hy, rfl⟩
      · exact .inl h
    · rcases List.suffix_cons_iff.mp h with eq | h
      · cases eq
        exact .inr ⟨hy, rfl⟩
      · exact (other hy (h.subset List.mem_cons_self)).elim

/-- An end without `p` stays. -/
theorem suffix_popThrough (keep : ∀ y ∈ s, p y = false) (h : s <:+ l) : s <:+ popThrough p l := by
  cases s with
  | nil => exact List.nil_suffix
  | cons x s =>
    rcases suffix_popThrough_or (fun y hy => keep y (List.mem_cons_of_mem x hy)) h with h | ⟨hx, -⟩
    · exact h
    · rw [keep x List.mem_cons_self] at hx
      cases hx

/-- The search passes over what is in front of the first element with `p`. -/
theorem dropWhile_append_cons (inner : List α) (s : List α) (hx : p x = true) (h : ∀ y ∈ inner, p y = false) :
    (inner ++ x :: s).dropWhile (fun y => !p y) = x :: s := by
  rw [List.dropWhile_append_of_pos fun y hy => by rw [h y hy]; rfl, List.dropWhile_cons_of_neg (by rw [hx]; simp)]

/-- Popping takes off the first element with `p` and what is in front of it. -/
theorem popThrough_append (inner s : List α) (hx : p x = true) (h : ∀ y ∈ inner, p y = false) :
    popThrough p (inner ++ x :: s) = s := by
  rw [popThrough, dropWhile_append_cons inner s hx h]

/-- Without an element with `p` nothing is popped. -/
theorem popThrough_of_forall (h : ∀ y ∈ l, p y = false) : popThrough p l = l := by
  rcases popThrough_eq_or p l with eq | ⟨x, hx, suffix⟩
  · exact eq
  · rw [h x (suffix.subset List.mem_cons_self)] at hx
    cases hx

/-- Popping stops at the only element with `p`. -/
theorem popTo_append (inner : List α) (s : List α) (hx : p x = true) (h : ∀ y ∈ inner, p y = false) :
    popTo p (inner ++ x :: s) = x :: s := by
  rw [popTo, dropWhile_append_cons inner s hx h]

end Popping

namespace Builder

open HtmlQuery.Tree (root)

/-! ## The invariant -/

/-- How far the frame of the document is, with the outer end of the open elements. -/
inductive Frame (b : Builder) : Prop
  | beforeHtml : b.mode = .beforeHtml → b.html = none → b.head = none → b.body = none → b.stack = [] → Frame b
  | outsideHead {html : NodeId} : b.mode = .inHead → b.html = some html → b.body = none → b.stack = [html] → Frame b
  | insideHead {html head : NodeId} : b.mode = .inHead → b.html = some html → b.head = some head → b.body = none →
      [head, html] <:+ b.stack → Frame b
  | insideBody {html head body : NodeId} : b.mode = .inBody → b.html = some html → b.head = some head →
      b.body = some body → [body, html] <:+ b.stack → Frame b

/-- The frame does not depend on the tree or the text. -/
theorem Frame.congr {b b' : Builder} (f : b.Frame) (hmode : b'.mode = b.mode) (hhtml : b'.html = b.html)
    (hhead : b'.head = b.head) (hbody : b'.body = b.body) (hstack : b'.stack = b.stack) : b'.Frame := by
  cases f with
  | beforeHtml mode html head body stack =>
    exact .beforeHtml (hmode.trans mode) (hhtml.trans html) (hhead.trans head) (hbody.trans body) (hstack.trans stack)
  | outsideHead mode html body stack =>
    exact .outsideHead (hmode.trans mode) (hhtml.trans html) (hbody.trans body) (hstack.trans stack)
  | insideHead mode html head body stack =>
    exact .insideHead (hmode.trans mode) (hhtml.trans html) (hhead.trans head) (hbody.trans body) (hstack ▸ stack)
  | insideBody mode html head body stack =>
    exact .insideBody (hmode.trans mode) (hhtml.trans html) (hhead.trans head) (hbody.trans body) (hstack ▸ stack)

/-- What holds between two changes. -/
structure Sound (b : Builder) : Prop where
  sequential : b.tree.Sequential
  /-- From the innermost open element to the document, each is the parent of the one before it. -/
  path : (b.stack ++ [root]).IsChain b.tree.HasParent
  frame : b.Frame
  head_parent : ∀ head ∈ b.head, ∃ html ∈ b.html, b.tree.HasParent head html
  head_ne_body : ∀ head ∈ b.head, b.body ≠ some head
  /-- Text is collected inside elements of the head and in the body only. -/
  text_place : b.pending.isEmpty ∨ b.betweenElements = false

variable {b b' : Builder} {id html head body : NodeId}

/-! ## Paths -/

/-- The new node continues a path that ends at its parent. -/
theorem isChain_append {t : Tree} {path : List NodeId} {kind : NodeKind} (hp : path.headD root < t.size)
    (h : (path ++ [root]).IsChain t.HasParent) :
    (t.size :: path ++ [root]).IsChain (t.append (path.headD root) kind).HasParent := by
  have old := h.imp fun _ _ => Tree.hasParent_append hp kind
  refine List.isChain_cons.mpr ⟨fun y hy => ?_, old⟩
  have first : (path ++ [root]).head? = some (path.headD root) := by cases path <;> rfl
  rw [List.append_eq, first] at hy
  cases hy
  exact Tree.hasParent_append_size hp kind

namespace Sound

variable (s : b.Sound)
include s

/-- Of two nodes on the path, the outer one is an ancestor of the inner one. -/
theorem pairwise : (b.stack ++ [root]).Pairwise fun x a => b.tree.IsAncestor a x := by
  have : Trans (fun x a => b.tree.IsAncestor a x) (fun x a => b.tree.IsAncestor a x)
      fun x a => b.tree.IsAncestor a x := ⟨fun h h' => Relation.TransGen.trans h h'⟩
  exact List.isChain_iff_pairwise.mp (s.path.imp fun _ _ => Relation.TransGen.single)

/-- Open elements are below the document. -/
theorem isAncestor_root (h : id ∈ b.stack) : b.tree.IsAncestor root id :=
  (List.pairwise_append.mp s.pairwise).2.2 id h root List.mem_cons_self

theorem lt_size_of_mem (h : id ∈ b.stack) : id < b.tree.size := by
  obtain ⟨p, hp, -⟩ := Tree.isAncestor_iff_parent?.mp (s.isAncestor_root h)
  exact Tree.lt_size_of_parent? hp

theorem ne_root_of_mem (h : id ∈ b.stack) : id ≠ root :=
  Nat.ne_of_gt (s.sequential.lt_of_isAncestor (s.isAncestor_root h))

theorem headD_lt_size {path : List NodeId} (h : path <:+ b.stack) : path.headD root < b.tree.size := by
  cases path with
  | nil => exact s.sequential.root_lt_size
  | cons id rest => exact s.lt_size_of_mem (h.subset List.mem_cons_self)

/-- Content goes to a node that is there. -/
theorem current_lt_size : b.current < b.tree.size := s.headD_lt_size List.suffix_rfl

/-- The current node lies in all open elements. -/
theorem isInclusiveAncestor_current (h : id ∈ b.stack) : b.tree.IsInclusiveAncestor id b.current := by
  have pairwise := (List.pairwise_append.mp s.pairwise).1
  unfold current
  cases hs : b.stack with
  | nil => rw [hs] at h; exact absurd h List.not_mem_nil
  | cons c rest =>
    rw [hs] at h pairwise
    rcases List.mem_cons.mp h with rfl | h
    · exact .refl
    · exact ((List.pairwise_cons.mp pairwise).1 id h).inclusive

theorem nodup_stack : b.stack.Nodup :=
  (List.pairwise_append.mp s.pairwise).1.imp fun {x a} (below : b.tree.IsAncestor a x) (eq : x = a) =>
    s.sequential.acyclic a (eq ▸ below)

/-- An open element is the parent of the one inside it. -/
theorem hasParent_of_suffix {x y : NodeId} {rest : List NodeId} (h : (x :: y :: rest) <:+ b.stack) :
    b.tree.HasParent x y := by
  have suffix : (x :: y :: (rest ++ [root])) <:+ (b.stack ++ [root]) := by
    obtain ⟨inner, eq⟩ := h
    exact ⟨inner, by rw [← eq, List.append_assoc]; rfl⟩
  exact (List.isChain_cons_cons.mp (s.path.suffix suffix)).1

/-- Without an `html` element there is nothing yet. -/
theorem of_html_eq_none (h : b.html = none) : b.head = none ∧ b.body = none ∧ b.stack = [] := by
  cases s.frame with
  | beforeHtml _ _ hhead hbody hstack => exact ⟨hhead, hbody, hstack⟩
  | outsideHead _ hhtml => rw [h] at hhtml; cases hhtml
  | insideHead _ hhtml => rw [h] at hhtml; cases hhtml
  | insideBody _ hhtml => rw [h] at hhtml; cases hhtml

/-- Without a head only the `html` element is open. -/
theorem of_head_eq_none (hhtml : b.html = some html) (h : b.head = none) :
    b.mode = .inHead ∧ b.body = none ∧ b.stack = [html] := by
  cases s.frame with
  | outsideHead hmode hhtml' hbody hstack =>
    cases hhtml.symm.trans hhtml'
    exact ⟨hmode, hbody, hstack⟩
  | beforeHtml _ hhtml' => rw [hhtml] at hhtml'; cases hhtml'
  | insideHead _ _ hhead => rw [h] at hhead; cases hhead
  | insideBody _ _ hhead => rw [h] at hhead; cases hhead

/-- The `html` element is the outermost open element. -/
theorem html_suffix (h : b.html = some html) : [html] <:+ b.stack := by
  cases s.frame with
  | beforeHtml _ hhtml => rw [h] at hhtml; cases hhtml
  | outsideHead _ hhtml _ hstack =>
    cases h.symm.trans hhtml
    rewrite [hstack]
    exact List.suffix_rfl
  | insideHead _ hhtml _ _ hstack =>
    cases h.symm.trans hhtml
    exact (List.suffix_cons _ _).trans hstack
  | insideBody _ hhtml _ _ hstack =>
    cases h.symm.trans hhtml
    exact (List.suffix_cons _ _).trans hstack

theorem html_lt_size (h : b.html = some html) : html < b.tree.size :=
  s.lt_size_of_mem ((s.html_suffix h).subset List.mem_cons_self)

theorem hasParent_head (hhtml : b.html = some html) (h : b.head = some head) : b.tree.HasParent head html := by
  obtain ⟨html', hhtml', parent⟩ := s.head_parent head h
  cases hhtml.symm.trans hhtml'
  exact parent

/-- The `head` element comes after the `html` element. -/
theorem html_lt_head (hhtml : b.html = some html) (h : b.head = some head) : html < head :=
  s.sequential.lt_of_parent? (s.hasParent_head hhtml h)

theorem head_lt_size (h : b.head = some head) : head < b.tree.size := by
  obtain ⟨_, -, parent⟩ := s.head_parent head h
  exact Tree.lt_size_of_parent? parent

/-- A builder with a body is in the body. -/
theorem suffix_of_body (h : b.body = some body) :
    ∃ html head, b.mode = .inBody ∧ b.html = some html ∧ b.head = some head ∧ [body, html] <:+ b.stack := by
  cases s.frame with
  | insideBody hmode hhtml hhead hbody hstack =>
    cases h.symm.trans hbody
    exact ⟨_, _, hmode, hhtml, hhead, hstack⟩
  | beforeHtml _ _ _ hbody => rw [h] at hbody; cases hbody
  | outsideHead _ _ hbody => rw [h] at hbody; cases hbody
  | insideHead _ _ _ hbody => rw [h] at hbody; cases hbody

/-- There is no body as long as the builder is before it. -/
theorem mode_ne_inBody_iff : b.mode ≠ .inBody ↔ b.body = none := by
  refine ⟨fun hmode => Option.eq_none_iff_forall_not_mem.mpr fun body hbody => ?_, fun hbody inBody => ?_⟩
  · obtain ⟨_, _, inBody, -⟩ := s.suffix_of_body hbody
    exact hmode inBody
  · cases s.frame with
    | insideBody _ _ _ hbody' => rw [hbody] at hbody'; cases hbody'
    | beforeHtml mode | outsideHead mode | insideHead mode => rw [inBody] at mode; cases mode

/-- The elements of the frame are there. -/
theorem lt_size_of_frame (h : b.html = some id ∨ b.head = some id ∨ b.body = some id) : id < b.tree.size := by
  rcases h with hhtml | hhead | hbody
  · exact s.html_lt_size hhtml
  · exact s.head_lt_size hhead
  · obtain ⟨_, _, -, -, -, hstack⟩ := s.suffix_of_body hbody
    exact s.lt_size_of_mem (hstack.subset List.mem_cons_self)

/-- None of the frame is a node that comes next. -/
theorem ne_of_size_le (h : b.tree.size ≤ id) : b.html ≠ some id ∧ b.head ≠ some id ∧ b.body ≠ some id :=
  ⟨fun frame => Nat.not_lt.mpr h (s.lt_size_of_frame (.inl frame)),
    fun frame => Nat.not_lt.mpr h (s.lt_size_of_frame (.inr (.inl frame))),
    fun frame => Nat.not_lt.mpr h (s.lt_size_of_frame (.inr (.inr frame)))⟩

/-- Neither the `html` element nor the head lie in the body. -/
theorem not_isInclusiveAncestor_body (h : b.body = some body) :
    (∀ html ∈ b.html, ¬ b.tree.IsInclusiveAncestor body html) ∧
      ∀ head ∈ b.head, ¬ b.tree.IsInclusiveAncestor body head := by
  obtain ⟨html, head, -, hhtml, hhead, hstack⟩ := s.suffix_of_body h
  have lt := s.sequential.lt_of_parent? (s.hasParent_of_suffix hstack)
  have notHtml : ¬ b.tree.IsInclusiveAncestor body html := fun above =>
    absurd (s.sequential.le_of_isInclusiveAncestor above) (Nat.not_le.mpr lt)
  constructor
  · rintro _ hhtml'
    cases hhtml.symm.trans hhtml'
    exact notHtml
  · rintro _ hhead' above
    cases hhead.symm.trans hhead'
    rcases Tree.isInclusiveAncestor_iff.mp above with rfl | above
    · exact s.head_ne_body _ hhead h
    · obtain ⟨p, hp, above⟩ := Tree.isAncestor_iff_parent?.mp above
      cases hp.symm.trans (s.hasParent_head hhtml hhead)
      exact notHtml above

/-- In the body there is no place between elements. -/
theorem betweenElements_of_body (h : b.body.isSome) : b.betweenElements = false := by
  obtain ⟨body, h⟩ := Option.isSome_iff_exists.mp h
  obtain ⟨html, head, -, -, -, hstack⟩ := s.suffix_of_body h
  obtain ⟨notHtml, notHead⟩ := s.not_isInclusiveAncestor_body h
  have inside := s.isInclusiveAncestor_current (hstack.subset List.mem_cons_self)
  have opened : b.stack.isEmpty = false := by
    rw [List.isEmpty_eq_false_iff]
    exact List.ne_nil_of_mem (hstack.subset List.mem_cons_self)
  simp only [betweenElements, opened, Bool.false_or, Bool.or_eq_false_iff, beq_eq_false_iff_ne]
  exact ⟨fun eq => notHtml _ eq inside, fun eq => notHead _ eq inside⟩

/-- Between elements there is no text. -/
theorem isEmpty_pending (h : b.betweenElements = true) : b.pending.isEmpty := by
  rcases s.text_place with text | place
  · exact text
  · rw [h] at place
    cases place

end Sound

/-! ## What each change keeps -/

theorem sound_initial : Sound {} where
  sequential := Tree.sequential_empty
  path := List.isChain_singleton _
  frame := .beforeHtml rfl rfl rfl rfl rfl
  head_parent := nofun
  head_ne_body := nofun
  text_place := .inl rfl

namespace Sound

variable (s : b.Sound)
include s

/-- A node is added to an open element or to the document, and perhaps opened. -/
theorem grown (kind : NodeKind) {path : List NodeId} (hpath : path <:+ b.stack)
    (htree : b'.tree = b.tree.append (path.headD root) kind)
    (hstack : b'.stack = path ∨ b'.stack = b.tree.size :: path) (frame : b'.Frame)
    (head_parent : ∀ head ∈ b'.head, b.head = some head ∧ b'.html = b.html ∨
      head = b.tree.size ∧ b'.html = some (path.headD root))
    (head_ne_body : ∀ head ∈ b'.head, b'.body ≠ some head)
    (text_place : b'.pending.isEmpty ∨ b'.betweenElements = false) : b'.Sound := by
  have hp := s.headD_lt_size hpath
  have old : (path ++ [root]).IsChain b.tree.HasParent := by
    obtain ⟨inner, eq⟩ := hpath
    exact s.path.suffix ⟨inner, by rw [← eq, List.append_assoc]⟩
  refine ⟨?sequential, ?path, frame, ?head_parent, head_ne_body, text_place⟩
  case sequential =>
    rw [htree]
    exact s.sequential.append hp kind
  case path =>
    rw [htree]
    rcases hstack with hstack | hstack
    · rw [hstack]
      exact old.imp fun _ _ => Tree.hasParent_append hp kind
    · rw [hstack]
      exact isChain_append hp old
  case head_parent =>
    intro head h
    rw [htree]
    rcases head_parent head h with ⟨h, hhtml⟩ | ⟨rfl, hhtml⟩
    · obtain ⟨html, hhtml', parent⟩ := s.head_parent head h
      exact ⟨html, hhtml.trans hhtml', Tree.hasParent_append hp kind parent⟩
    · exact ⟨_, hhtml, Tree.hasParent_append_size hp kind⟩

/-- Content is added to the current node. -/
theorem append (kind : NodeKind) {pending : String} (text_place : pending.isEmpty ∨ b.betweenElements = false) :
    Sound { b.append kind with pending } :=
  s.grown kind List.suffix_rfl rfl (.inl rfl) (s.frame.congr rfl rfl rfl rfl rfl) (fun _ h => .inl ⟨h, rfl⟩)
    s.head_ne_body text_place

theorem endText (h : b.pending.isEmpty = false) : b.endText.Sound := by
  rw [endText_of_isEmpty_eq_false h]
  exact s.append _ (.inl rfl)

theorem openHtml (h : b.html = none) : b.withHtml.1.Sound := by
  obtain ⟨hhead, hbody, hstack⟩ := s.of_html_eq_none h
  have between : b.betweenElements = true := by rw [betweenElements, hstack]; rfl
  rw [withHtml_of_none h]
  refine s.grown _ List.suffix_rfl (by rw [hstack]; rfl) (.inr rfl) (.outsideHead rfl rfl hbody ?_) ?_ ?_
    (.inl (s.isEmpty_pending between))
  · rw [hstack]
  · intro head hhead'
    cases hhead.symm.trans hhead'
  · exact s.head_ne_body

/-- Outside the head there is no text. -/
theorem isEmpty_pending_of_stack (hhtml : b.html = some html) (hstack : b.stack = [html]) : b.pending.isEmpty := by
  refine s.isEmpty_pending ?_
  simp only [betweenElements, current, hhtml, hstack, List.headD_cons, beq_self_eq_true, Bool.or_true, Bool.true_or]

theorem openHead (hhtml : b.html = some html) (h : b.head = none) : b.withHead.1.Sound := by
  obtain ⟨hmode, hbody, hstack⟩ := s.of_head_eq_none hhtml h
  rw [withHead_of_none hhtml h]
  refine s.grown _ List.suffix_rfl (by rw [hstack]; rfl) (.inr rfl) (.insideHead hmode hhtml rfl hbody ?_) ?_ ?_
    (.inl (s.isEmpty_pending_of_stack hhtml hstack))
  · rewrite [hstack]
    exact List.suffix_rfl
  · intro head hhead
    exact .inr ⟨(Option.some.inj hhead).symm, by rw [hstack]; exact hhtml⟩
  · intro head _ eq
    cases hbody.symm.trans eq

/-- The way back to the `html` element closes everything else. -/
theorem popTo_html (h : b.html = some html) : popTo (· == html) b.stack = [html] := by
  obtain ⟨inner, eq⟩ := s.html_suffix h
  have nodup := s.nodup_stack
  rw [← eq] at nodup ⊢
  refine popTo_append inner [] (beq_self_eq_true html) fun y hy => beq_eq_false_iff_ne.mpr ?_
  rintro rfl
  exact (List.nodup_append.mp nodup).2.2 y hy y List.mem_cons_self rfl

theorem openBody (hhtml : b.html = some html) (hhead : b.head = some head) (h : b.body = none) :
    b.withBody.1.Sound := by
  have htmlSmall := s.html_lt_size hhtml
  have headSmall := s.head_lt_size hhead
  rw [withBody_of_none hhtml hhead h, s.popTo_html hhtml]
  refine s.grown _ (s.html_suffix hhtml) rfl (.inr rfl) (.insideBody rfl hhtml hhead rfl List.suffix_rfl)
    (fun _ h => .inl ⟨h, rfl⟩) ?_ (.inr ?_)
  · intro head' hhead' eq
    cases hhead.symm.trans hhead'
    exact Nat.ne_of_gt headSmall (Option.some.inj eq)
  · simp only [betweenElements, current, hhtml, hhead, List.headD_cons, List.isEmpty_cons, Bool.false_or,
      Bool.or_eq_false_iff, beq_eq_false_iff_ne, ne_eq, Option.some.injEq]
    exact ⟨Nat.ne_of_lt htmlSmall, Nat.ne_of_lt headSmall⟩

theorem merge (id : NodeId) (attributes : List Attribute) : (b.merge id attributes).Sound where
  sequential := s.sequential.modifyAttributes id (Attributes.merge · attributes)
  path := by
    rw [Builder.merge, Tree.hasParent_modifyAttributes]
    exact s.path
  frame := s.frame.congr rfl rfl rfl rfl rfl
  head_parent := by
    rw [Builder.merge, Tree.hasParent_modifyAttributes]
    exact s.head_parent
  head_ne_body := s.head_ne_body
  text_place := s.text_place

theorem collect (c : Char) (h : b.body.isSome ∨ b.betweenElements = false) :
    Sound { b with pending := b.pending.push c } where
  sequential := s.sequential
  path := s.path
  frame := s.frame.congr rfl rfl rfl rfl rfl
  head_parent := s.head_parent
  head_ne_body := s.head_ne_body
  text_place := .inr (h.elim s.betweenElements_of_body id)

theorem reopenHead (hmode : b.mode ≠ .inBody) (hhead : b.head = some head) (h : head ∉ b.stack) :
    Sound { b with stack := head :: b.stack } := by
  cases s.frame with
  | outsideHead hmode' hhtml hbody hstack =>
    refine ⟨s.sequential, ?_, .insideHead hmode' hhtml hhead hbody ?_, s.head_parent, s.head_ne_body,
      .inl (s.isEmpty_pending_of_stack hhtml hstack)⟩
    · refine List.isChain_cons.mpr ⟨fun y hy => ?_, s.path⟩
      rw [hstack] at hy
      cases hy
      exact s.hasParent_head hhtml hhead
    · rewrite [hstack]
      exact List.suffix_rfl
  | beforeHtml _ _ hhead' => rw [hhead] at hhead'; cases hhead'
  | insideHead _ _ hhead' _ hstack =>
    cases hhead.symm.trans hhead'
    exact absurd (hstack.subset List.mem_cons_self) h
  | insideBody hmode' => exact absurd hmode' hmode

/-- While the head is open, the open elements are in it. -/
theorem suffix_of_head (hmode : b.mode ≠ .inBody) (hhead : b.head = some head) (h : head ∈ b.stack) :
    ∃ html, b.mode = .inHead ∧ b.html = some html ∧ b.body = none ∧ [head, html] <:+ b.stack := by
  cases s.frame with
  | insideHead hmode' hhtml hhead' hbody hstack =>
    cases hhead.symm.trans hhead'
    exact ⟨_, hmode', hhtml, hbody, hstack⟩
  | beforeHtml _ _ hhead' => rw [hhead] at hhead'; cases hhead'
  | outsideHead _ hhtml _ hstack =>
    rw [hstack, List.mem_singleton] at h
    subst h
    exact absurd (s.html_lt_head hhtml hhead) (Nat.lt_irrefl _)
  | insideBody hmode' => exact absurd hmode' hmode

end Sound

/-- An element is added to the current node. -/
theorem addElement_eq (b : Builder) (name : String) (selfClosing : Bool) (attributes : List Attribute) :
    b.addElement name selfClosing attributes = { b with
      tree := b.tree.append b.current (.element ⟨name, Attributes.empty.merge attributes⟩)
      stack := if selfClosing || isVoidName name then b.stack else b.tree.size :: b.stack } := by
  unfold addElement
  split <;> rfl

namespace Sound

variable (s : b.Sound)
include s

theorem addElement (name : String) (selfClosing : Bool) (attributes : List Attribute) (hpending : b.pending.isEmpty)
    (frame : (b.addElement name selfClosing attributes).Frame) :
    (b.addElement name selfClosing attributes).Sound := by
  rw [addElement_eq] at frame ⊢
  refine s.grown _ List.suffix_rfl rfl ?_ frame (fun _ h => .inl ⟨h, rfl⟩) s.head_ne_body (.inl hpending)
  split
  · exact .inl rfl
  · exact .inr rfl

omit s in
theorem suffix_addElement {outer : List NodeId} (h : outer <:+ b.stack) (name : String) (selfClosing : Bool)
    (attributes : List Attribute) : outer <:+ (b.addElement name selfClosing attributes).stack := by
  rw [addElement_eq]
  show outer <:+ if _ then _ else _
  split
  · exact h
  · exact h.trans (List.suffix_cons _ _)

theorem headElement {name : String} (selfClosing : Bool) (attributes : List Attribute) (hpending : b.pending.isEmpty)
    (hmode : b.mode ≠ .inBody) (hhead : b.head = some head) (h : head ∈ b.stack) :
    (b.addElement name selfClosing attributes).Sound := by
  obtain ⟨html, hmode, hhtml, hbody, hstack⟩ := s.suffix_of_head hmode hhead h
  refine s.addElement name selfClosing attributes hpending ?_
  have suffix := suffix_addElement hstack name selfClosing attributes
  rw [addElement_eq] at suffix ⊢
  exact .insideHead hmode hhtml hhead hbody suffix

theorem bodyElement (name : String) (selfClosing : Bool) (attributes : List Attribute) (hpending : b.pending.isEmpty)
    (h : b.body.isSome) : (b.addElement name selfClosing attributes).Sound := by
  obtain ⟨body, hbody⟩ := Option.isSome_iff_exists.mp h
  obtain ⟨html, head, hmode, hhtml, hhead, hstack⟩ := s.suffix_of_body hbody
  refine s.addElement name selfClosing attributes hpending ?_
  have suffix := suffix_addElement hstack name selfClosing attributes
  rw [addElement_eq] at suffix ⊢
  exact .insideBody hmode hhtml hhead hbody suffix

/-- Closing keeps the frame, where the head may be closed. -/
theorem frame_close {p : NodeId → Bool}
    (h : ∀ id, p id = true → b.head = some id ∨ b.html ≠ some id ∧ b.body ≠ some id) :
    Frame { b with stack := popThrough p b.stack } := by
  have html_kept (html : NodeId) (hhtml : b.html = some html) : p html = false := by
    rw [← Bool.not_eq_true]
    intro hp
    rcases h html hp with hhead | ⟨hne, -⟩
    · exact Nat.lt_irrefl _ (s.html_lt_head hhtml hhead)
    · exact hne hhtml
  have body_kept (body : NodeId) (hbody : b.body = some body) : p body = false := by
    rw [← Bool.not_eq_true]
    intro hp
    rcases h body hp with hhead | ⟨-, hne⟩
    · exact s.head_ne_body body hhead hbody
    · exact hne hbody
  cases s.frame with
  | beforeHtml hmode hhtml hhead hbody hstack =>
    exact .beforeHtml hmode hhtml hhead hbody (by rw [hstack]; rfl)
  | outsideHead hmode hhtml hbody hstack =>
    refine .outsideHead hmode hhtml hbody ?_
    have kept := suffix_popThrough (p := p) (s := b.stack) (l := b.stack) (fun y hy => by
      rw [hstack, List.mem_singleton] at hy
      exact html_kept y (hy ▸ hhtml)) List.suffix_rfl
    rw [← hstack]
    exact (kept.eq_of_length (Nat.le_antisymm kept.length_le (popThrough_suffix p b.stack).length_le)).symm
  | insideHead hmode hhtml hhead hbody hstack =>
    rcases suffix_popThrough_or (p := p) (fun y hy => by
      rw [List.mem_singleton] at hy
      exact html_kept y (hy ▸ hhtml)) hstack with kept | ⟨-, closed⟩
    · exact .insideHead hmode hhtml hhead hbody kept
    · exact .outsideHead hmode hhtml hbody closed
  | insideBody hmode hhtml hhead hbody hstack =>
    refine .insideBody hmode hhtml hhead hbody (suffix_popThrough (fun y hy => ?_) hstack)
    rcases List.mem_cons.mp hy with rfl | hy
    · exact body_kept y hbody
    · rw [List.mem_singleton] at hy
      exact html_kept y (hy ▸ hhtml)

theorem close {p : NodeId → Bool} (hpending : b.pending.isEmpty)
    (h : ∀ id, p id = true → b.head = some id ∨ b.html ≠ some id ∧ b.body ≠ some id) :
    Sound { b with stack := popThrough p b.stack } where
  sequential := s.sequential
  path := by
    obtain ⟨inner, eq⟩ := popThrough_suffix p b.stack
    exact s.path.suffix ⟨inner, by rw [← List.append_assoc, eq]⟩
  frame := s.frame_close h
  head_parent := s.head_parent
  head_ne_body := s.head_ne_body
  text_place := .inl hpending

/-- **Every elementary change keeps a builder sound.** -/
theorem change (h : Change b b') : b'.Sound := by
  cases h with
  | collect c place => exact s.collect c place
  | endText text => exact s.endText text
  | comment data empty => exact s.append _ (.inl empty)
  | openHtml hhtml => exact s.openHtml hhtml
  | openHead hhtml hhead => exact s.openHead hhtml hhead
  | openBody hhtml hhead hbody => exact s.openBody hhtml hhead hbody
  | merge attributes _ => exact s.merge _ attributes
  | reopenHead hmode hhead closed => exact s.reopenHead hmode hhead closed
  | headElement selfClosing attributes empty hmode hhead opened _ =>
    exact s.headElement selfClosing attributes empty hmode hhead opened
  | bodyElement name selfClosing attributes empty hbody => exact s.bodyElement name selfClosing attributes empty hbody
  | close empty kept => exact s.close empty kept

end Sound

/-- A builder stays sound through every sequence of changes. -/
theorem Sound.changes (s : b.Sound) (h : Changes b b') : b'.Sound := by
  induction h with
  | refl => exact s
  | tail _ change ih => exact ih.change change

theorem Changes.sound (h : Changes {} b) : b.Sound := sound_initial.changes h

end Builder

/-- **The nodes of a document are numbered from the top.** The first is the document itself. Every other one has a
parent with a smaller name, and it is once a child of its parent and of no other node. So the walk from the document
meets every node once. -/
theorem Tree.ofTokens_numbering (tokens : List Token) :
    (∃ children, (ofTokens tokens).get? root = some ⟨.document, none, children⟩) ∧
    (∀ id, root < id → id < (ofTokens tokens).size → ∃ p, p < id ∧ (ofTokens tokens).parent? id = some p ∧
      ((ofTokens tokens).children p).count id = 1 ∧ ∀ q, q ≠ p → id ∉ (ofTokens tokens).children q) ∧
    ((ofTokens tokens).descendants root).Perm (List.range' 1 ((ofTokens tokens).size - 1)) := by
  obtain ⟨b, changes, -, eq⟩ := ofTokens_eq tokens
  have seq := changes.sound.sequential
  rw [eq]
  refine ⟨?_, fun id pos small => ?_, seq.descendants_root_perm⟩
  · obtain ⟨⟨kind, parent, children⟩, get, hkind⟩ := Option.map_eq_some_iff.mp seq.kind_root
    have free := seq.parent?_root
    rw [parent?, get] at free
    cases hkind
    cases free
    exact ⟨children, get⟩
  · obtain ⟨p, hp, lt⟩ := seq.exists_parent id pos small
    refine ⟨p, lt, hp, ?_, fun q hq mem => ?_⟩
    · exact List.count_eq_one_of_mem (seq.nodup_children p) ((seq.mem_children p id).mpr hp)
    · exact hq (Option.some.inj (((seq.mem_children q id).mp mem).symm.trans hp))

theorem Tree.wellFormed_parse (html : String) : (parse html).WellFormed := by
  obtain ⟨b, changes, -, eq⟩ := ofTokens_eq (tokenize html)
  rw [parse, eq]
  exact changes.sound.sequential.toWellFormed

end HtmlQuery
