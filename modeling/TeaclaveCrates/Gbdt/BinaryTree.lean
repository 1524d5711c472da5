import Mathlib.Data.List.Basic
import Mathlib.Order.Nat

namespace TeaclaveCrates.Gbdt

/-!
# The binary tree

`binary_tree::BinaryTree` keeps its nodes in one vector, and a node names its children by their
positions in it. The position 0 is that of the root, so as a child it stands for none.

* `BinaryTree` — the nodes and the operations on them.
* `Shape` — a tree as a value.
* `Represents` — the tree that hangs on a node of the vector.
* `install`, `represents_install` — a tree that is written into the vector node by node.
-/

/-- A node with its position and those of its children. -/
structure BinaryTreeNode (T : Type) where
  value : T
  index : Nat
  left : Nat
  right : Nat
  deriving DecidableEq, Repr

/-- `BinaryTreeNode::new` -/
def BinaryTreeNode.new {T : Type} (value : T) : BinaryTreeNode T := ⟨value, 0, 0, 0⟩

/-- The vector of the nodes. -/
structure BinaryTree (T : Type) where
  tree : List (BinaryTreeNode T)
  deriving DecidableEq, Repr

namespace BinaryTree

variable {T : Type}

/-- `BinaryTree::new` -/
def new : BinaryTree T := ⟨[]⟩

/-- `len` -/
def len (t : BinaryTree T) : Nat := t.tree.length

/-- `get_node` -/
def getNode (t : BinaryTree T) (index : Nat) : Option (BinaryTreeNode T) := t.tree[index]?

/-- `get_left_child` -/
def getLeftChild (t : BinaryTree T) (node : BinaryTreeNode T) : Option (BinaryTreeNode T) :=
  if node.left = 0 then none else t.getNode node.left

/-- `get_right_child` -/
def getRightChild (t : BinaryTree T) (node : BinaryTreeNode T) : Option (BinaryTreeNode T) :=
  if node.right = 0 then none else t.getNode node.right

/-- A change of a node through `get_node_mut`. -/
def updateNode (t : BinaryTree T) (index : Nat) (f : BinaryTreeNode T → BinaryTreeNode T) :
    BinaryTree T :=
  ⟨t.tree.modify index f⟩

/-- `add_node`: the new node stands at the end, at the position `len`. -/
def addNode (t : BinaryTree T) (parent : Nat) (isLeft : Bool) (child : BinaryTreeNode T) :
    BinaryTree T × Nat :=
  let position := t.len
  let pushed : BinaryTree T := ⟨t.tree ++ [{ child with index := position }]⟩
  if position = 0 then (pushed, position)
  else
    (pushed.updateNode parent fun n =>
      if isLeft then { n with left := position } else { n with right := position }, position)

/-- `add_root` -/
def addRoot (t : BinaryTree T) (root : BinaryTreeNode T) : BinaryTree T × Nat :=
  t.addNode 0 false root

/-- `add_left_node` -/
def addLeftNode (t : BinaryTree T) (parent : Nat) (child : BinaryTreeNode T) :
    BinaryTree T × Nat :=
  t.addNode parent true child

/-- `add_right_node` -/
def addRightNode (t : BinaryTree T) (parent : Nat) (child : BinaryTreeNode T) :
    BinaryTree T × Nat :=
  t.addNode parent false child

/-! ### What an operation changes -/

variable {t : BinaryTree T} {k i : Nat}

theorem len_updateNode (t : BinaryTree T) (k : Nat) (f : BinaryTreeNode T → BinaryTreeNode T) :
    (t.updateNode k f).len = t.len := by
  simp [updateNode, len]

theorem getNode_updateNode_self (t : BinaryTree T) (k : Nat)
    (f : BinaryTreeNode T → BinaryTreeNode T) :
    (t.updateNode k f).getNode k = (t.getNode k).map f := by
  simp [updateNode, getNode]

theorem getNode_updateNode_ne (h : i ≠ k) (f : BinaryTreeNode T → BinaryTreeNode T) :
    (t.updateNode k f).getNode i = t.getNode i := by
  simp [updateNode, getNode, h.symm]

theorem lt_len_of_getNode {n : BinaryTreeNode T} (h : t.getNode i = some n) : i < t.len :=
  (List.getElem?_eq_some_iff.mp h).1

theorem len_addNode (t : BinaryTree T) (parent : Nat) (isLeft : Bool) (child : BinaryTreeNode T) :
    (t.addNode parent isLeft child).1.len = t.len + 1 ∧
      (t.addNode parent isLeft child).2 = t.len := by
  unfold addNode
  by_cases hnew : t.len = 0
  · rw [if_pos hnew]
    simp [len]
  · rw [if_neg hnew, len_updateNode]
    simp [len]

variable {parent : Nat}

/-- The new node, below a node of the tree. -/
theorem getNode_addNode_new (h : parent < t.len) (isLeft : Bool) (child : BinaryTreeNode T) :
    (t.addNode parent isLeft child).1.getNode t.len = some { child with index := t.len } := by
  unfold addNode
  rw [if_neg (by omega), getNode_updateNode_ne (by omega)]
  simp [getNode, len]

/-- A new root. In a tree that is not empty it hangs on the right of the old one. -/
theorem getNode_addRoot (t : BinaryTree T) (root : BinaryTreeNode T) :
    (t.addRoot root).1.getNode t.len = some { root with index := t.len } := by
  by_cases h : 0 < t.len
  · exact getNode_addNode_new h false root
  · unfold addRoot addNode
    rw [if_pos (by omega)]
    simp [getNode, len]

/-- The parent of a new node. -/
theorem getNode_addNode_parent {n : BinaryTreeNode T} (h : t.getNode parent = some n)
    (isLeft : Bool) (child : BinaryTreeNode T) :
    (t.addNode parent isLeft child).1.getNode parent =
      some (if isLeft then { n with left := t.len } else { n with right := t.len }) := by
  have hlt := lt_len_of_getNode h
  unfold addNode
  rw [if_neg (by omega), getNode_updateNode_self]
  have hold : (⟨t.tree ++ [{ child with index := t.len }]⟩ : BinaryTree T).getNode parent =
      some n := by
    unfold getNode
    rw [List.getElem?_append_left hlt]
    exact h
  simp [hold]

/-- Every other node stays as it is. -/
theorem getNode_addNode_ne (hi : i < t.len) (hne : i ≠ parent) (isLeft : Bool)
    (child : BinaryTreeNode T) :
    (t.addNode parent isLeft child).1.getNode i = t.getNode i := by
  unfold addNode
  rw [if_neg (by omega), getNode_updateNode_ne hne]
  exact List.getElem?_append_left hi

/-- `t'` has the nodes of `t` at the same positions, the one at `k` apart. -/
def SameBut (k : Nat) (t t' : BinaryTree T) : Prop :=
  t.len ≤ t'.len ∧ ∀ i, i < t.len → i ≠ k → t'.getNode i = t.getNode i

theorem SameBut.refl (k : Nat) (t : BinaryTree T) : SameBut k t t := ⟨le_rfl, fun _ _ _ => rfl⟩

theorem SameBut.trans {t₁ t₂ t₃ : BinaryTree T} (h : SameBut k t₁ t₂) (h' : SameBut k t₂ t₃) :
    SameBut k t₁ t₃ := by
  refine ⟨le_trans h.1 h'.1, fun i hi hne => ?_⟩
  rw [h'.2 i (lt_of_lt_of_le hi h.1) hne, h.2 i hi hne]

theorem sameBut_updateNode (t : BinaryTree T) (k : Nat)
    (f : BinaryTreeNode T → BinaryTreeNode T) : SameBut k t (t.updateNode k f) :=
  ⟨le_of_eq (len_updateNode t k f).symm, fun _ _ hne => getNode_updateNode_ne hne f⟩

theorem sameBut_addNode (t : BinaryTree T) (k : Nat) (isLeft : Bool) (child : BinaryTreeNode T) :
    SameBut k t (t.addNode k isLeft child).1 := by
  refine ⟨?_, fun i hi hne => getNode_addNode_ne hi hne isLeft child⟩
  rw [(len_addNode t k isLeft child).1]
  exact Nat.le_succ _

/-- What is changed at a new position only is not changed at all below it. -/
theorem SameBut.of_new {t₁ t₂ t₃ : BinaryTree T} (h : SameBut k t₁ t₂)
    (h' : SameBut t₁.len t₂ t₃) : SameBut k t₁ t₃ := by
  refine ⟨le_trans h.1 h'.1, fun i hi hne => ?_⟩
  rw [h'.2 i (lt_of_lt_of_le hi h.1) (by omega), h.2 i hi hne]

end BinaryTree

/-! ### Trees as values -/

/-- A binary tree with a value at each node. -/
inductive Shape (T : Type) where
  | leaf (value : T)
  | node (value : T) (left right : Shape T)
  deriving DecidableEq, Repr

namespace Shape

variable {T : Type}

/-- The number of levels below the root. -/
def height : Shape T → Nat
  | leaf _ => 0
  | node _ l r => max l.height r.height + 1

end Shape

namespace BinaryTree

variable {T : Type}

/-- The tree that hangs on a node. Children stand behind their parent. -/
def Represents (t : BinaryTree T) : Nat → Shape T → Prop
  | k, .leaf v => ∃ n, t.getNode k = some n ∧ n.value = v
  | k, .node v l r => ∃ n, t.getNode k = some n ∧ n.value = v ∧ k < n.left ∧ k < n.right ∧
      Represents t n.left l ∧ Represents t n.right r

variable {t t' : BinaryTree T} {k : Nat}

variable {s : Shape T}

theorem Represents.lt_len (h : Represents t k s) : k < t.len := by
  cases s with
  | leaf v =>
    obtain ⟨n, hn, -⟩ := h
    exact lt_len_of_getNode hn
  | node v l r =>
    obtain ⟨n, hn, -⟩ := h
    exact lt_len_of_getNode hn

/-- A tree depends on the nodes from its root on only. -/
theorem Represents.congr (h : Represents t k s)
    (hsame : ∀ i n, k ≤ i → t.getNode i = some n → t'.getNode i = some n) :
    Represents t' k s := by
  induction s generalizing k with
  | leaf v =>
    obtain ⟨n, hn, hv⟩ := h
    exact ⟨n, hsame k n le_rfl hn, hv⟩
  | node v l r ihl ihr =>
    obtain ⟨n, hn, hv, hl, hr, hleft, hright⟩ := h
    refine ⟨n, hsame k n le_rfl hn, hv, hl, hr, ihl hleft ?_, ihr hright ?_⟩
    · exact fun i m hi => hsame i m (by omega)
    · exact fun i m hi => hsame i m (by omega)

/-- What is changed at a node in front of it, or at a new one, does not change a tree. -/
theorem Represents.of_sameBut (h : Represents t k s) {j : Nat} (hsame : SameBut j t t')
    (hj : j < k ∨ t.len ≤ j) : Represents t' k s := by
  apply h.congr
  intro i n hi hn
  have hlt := lt_len_of_getNode hn
  rw [hsame.2 i hlt (by omega), hn]

/-! ### Writing a tree -/

/-- Writes a tree into the vector, below the node at `k`: first the value of the node, then the left
    and the right subtree. New nodes hold `blank` until they are written. -/
def install (blank : T) : BinaryTree T → Nat → Shape T → BinaryTree T
  | t, k, .leaf v => t.updateNode k fun n => { n with value := v }
  | t, k, .node v l r =>
    let t := t.updateNode k fun n => { n with value := v }
    let (t, left) := t.addLeftNode k (BinaryTreeNode.new blank)
    let t := install blank t left l
    let (t, right) := t.addRightNode k (BinaryTreeNode.new blank)
    install blank t right r

theorem sameBut_install (blank : T) (t : BinaryTree T) (k : Nat) (s : Shape T) :
    SameBut k t (install blank t k s) := by
  induction s generalizing t k with
  | leaf v => exact sameBut_updateNode t k _
  | node v l r ihl ihr =>
    rw [install]
    have h₁ := sameBut_updateNode t k fun n => { n with value := v }
    generalize t.updateNode k (fun n => { n with value := v }) = t₁ at h₁ ⊢
    have h₂ := sameBut_addNode t₁ k true (BinaryTreeNode.new blank)
    have hlen₂ := len_addNode t₁ k true (BinaryTreeNode.new blank)
    unfold addLeftNode addRightNode
    generalize t₁.addNode k true (BinaryTreeNode.new blank) = p₂ at h₂ hlen₂ ⊢
    obtain ⟨t₂, left⟩ := p₂
    obtain ⟨-, rfl⟩ := hlen₂
    have h₃ := h₂.of_new (ihl t₂ t₁.len)
    dsimp only at h₃ ⊢
    generalize install blank t₂ t₁.len l = t₃ at h₃ ⊢
    have h₄ := sameBut_addNode t₃ k false (BinaryTreeNode.new blank)
    have hlen₄ := len_addNode t₃ k false (BinaryTreeNode.new blank)
    generalize t₃.addNode k false (BinaryTreeNode.new blank) = p₄ at h₄ hlen₄ ⊢
    obtain ⟨t₄, right⟩ := p₄
    obtain ⟨-, rfl⟩ := hlen₄
    exact (h₁.trans h₃).trans (h₄.of_new (ihr t₄ t₃.len))

/-- **What is written is there.** -/
theorem represents_install (blank : T) {t : BinaryTree T} {k : Nat} (hk : k < t.len)
    (s : Shape T) : Represents (install blank t k s) k s := by
  induction s generalizing t k with
  | leaf v =>
    obtain ⟨n, hn⟩ : ∃ n, t.getNode k = some n := ⟨_, List.getElem?_eq_getElem hk⟩
    refine ⟨{ n with value := v }, ?_, rfl⟩
    simp [install, getNode_updateNode_self, hn]
  | node v l r ihl ihr =>
    obtain ⟨n, hn⟩ : ∃ n, t.getNode k = some n := ⟨_, List.getElem?_eq_getElem hk⟩
    rw [install]
    have hn₁ : (t.updateNode k fun n => { n with value := v }).getNode k =
        some { n with value := v } := by
      simp [getNode_updateNode_self, hn]
    generalize t.updateNode k (fun n => { n with value := v }) = t₁ at hn₁ ⊢
    have hk₁ := lt_len_of_getNode hn₁
    -- the left child
    have hn₂ := getNode_addNode_parent hn₁ true (BinaryTreeNode.new blank)
    have hlen₂ := len_addNode t₁ k true (BinaryTreeNode.new blank)
    unfold addLeftNode addRightNode
    generalize t₁.addNode k true (BinaryTreeNode.new blank) = p₂ at hn₂ hlen₂ ⊢
    obtain ⟨t₂, left⟩ := p₂
    obtain ⟨hlen₂, rfl⟩ := hlen₂
    dsimp only at hn₂ hlen₂ ⊢
    have hleft := ihl (t := t₂) (k := t₁.len) (by omega)
    have hsame₃ := sameBut_install blank t₂ t₁.len l
    generalize install blank t₂ t₁.len l = t₃ at hleft hsame₃ ⊢
    have hn₃ := hsame₃.2 k (by omega) (by omega)
    rw [hn₂, if_pos rfl] at hn₃
    have hk₃ := lt_len_of_getNode hn₃
    -- the right child
    have hn₄ := getNode_addNode_parent hn₃ false (BinaryTreeNode.new blank)
    have hlen₄ := len_addNode t₃ k false (BinaryTreeNode.new blank)
    have hsame₄ := sameBut_addNode t₃ k false (BinaryTreeNode.new blank)
    generalize t₃.addNode k false (BinaryTreeNode.new blank) = p₄ at hn₄ hlen₄ hsame₄ ⊢
    obtain ⟨t₄, right⟩ := p₄
    obtain ⟨hlen₄, rfl⟩ := hlen₄
    dsimp only at hn₄ hlen₄ hsame₄ ⊢
    have hright := ihr (t := t₄) (k := t₃.len) (by omega)
    have hsame₅ := sameBut_install blank t₄ t₃.len r
    have hn₅ := hsame₅.2 k (by omega) (by omega)
    rw [hn₄, if_neg Bool.false_ne_true] at hn₅
    refine ⟨_, hn₅, rfl, hk₁, hk₃, ?_, hright⟩
    exact hleft.of_sameBut (hsame₄.of_new hsame₅) (Or.inl hk₁)

end BinaryTree

end TeaclaveCrates.Gbdt
