import TeaclaveCrates.Gbdt.Routing

namespace TeaclaveCrates.Gbdt

/-!
# Trees of xgboost

`get_from_xgboost` builds a tree from the JSON that xgboost dumps. A node names its children by their
ids, and they may come in any order.

* `Json`, `Numbers` — values of `serde_json`, and what its numbers are read as.
* `addNodeFromJson`, `getFromXgboost` — building the tree.
* `Evaluates` — the value of a JSON tree for a sample, read off directly.
* `addNodeFromJson_ok` — what is stored below a node that is built.
* `predict_xgboost` — an imported tree predicts the value of the JSON tree.
-/

/-! ### JSON -/

/-- `serde_json::Value`, with numbers of the type `N`. -/
inductive Json (N : Type) where
  | null
  | bool (b : Bool)
  | number (n : N)
  | string (s : String)
  | array (items : List (Json N))
  | object (fields : List (String × Json N))

/-- What numbers are read as: `as_f64`, `as_i64`, and `parse::<i64>` of a text. -/
structure Numbers (N F : Type) where
  asF64 : N → Option F
  asI64 : N → Option Int
  parseI64 : String → Option Int
  asI64_lt : ∀ n v, asI64 n = some v → v < 2 ^ 63
  parseI64_lt : ∀ s v, parseI64 s = some v → v < 2 ^ 63

namespace Json

variable {N F : Type}

/-- Indexing by a key: `null` for a key that is not there, and for values that are no objects. -/
def get (key : String) : Json N → Json N
  | object fields => ((fields.find? fun field => field.1 = key).map fun field => field.2).getD null
  | _ => null

/-- `as_f64` -/
def asF64 (num : Numbers N F) : Json N → Option F
  | number n => num.asF64 n
  | _ => none

/-- `as_i64` -/
def asI64 (num : Numbers N F) : Json N → Option Int
  | number n => num.asI64 n
  | _ => none

/-- `as_str` -/
def asStr : Json N → Option String
  | string s => some s
  | _ => none

/-- `as_array` -/
def asArray : Json N → Option (List (Json N))
  | array items => some items
  | _ => none

/-- What is found in a value is smaller than the value. -/
theorem sizeOf_get_lt {key : String} {node : Json N} {items : List (Json N)}
    (h : (node.get key).asArray = some items) : sizeOf items < sizeOf node := by
  cases node with
  | object fields =>
    unfold get at h
    dsimp only at h
    cases hfind : fields.find? fun field => field.1 = key with
    | none =>
      rw [hfind] at h
      exact absurd h (by simp [asArray])
    | some field =>
      rw [hfind] at h
      have hmem := List.sizeOf_lt_of_mem (List.mem_of_find?_eq_some hfind)
      obtain ⟨k, value⟩ := field
      cases value with
      | array items' =>
        have hitems : items' = items := by simpa [asArray] using h
        subst hitems
        have hfield : sizeOf (k, array items') = 1 + sizeOf k + (1 + sizeOf items') := by simp
        simp only [object.sizeOf_spec]
        omega
      | _ => exact absurd h (by simp [asArray])
  | _ => exact absurd h (by simp [get, asArray])

end Json

/-! ### Building a tree -/

/-- `GbdtError`, as far as it is returned here. -/
inductive GbdtError
  | notSupportExtraMissingNode
  | childrenNotFound
  | io (text : String)
  | parseInt
  deriving DecidableEq, Repr

/-- `ok_or_else` with a text -/
def orError {α : Type} (value : Option α) (text : String) : Except GbdtError α :=
  match value with
  | some a => .ok a
  | none => .error (.io text)

section

variable {V F N : Type} [LinearOrder V] [Zero V] (A : Arith V F) (num : Numbers N F)

/-- What is read of a node with children: the value to store, and the ids of the children. -/
structure SplitInfo (V : Type) where
  featureValue : V
  featureIndex : Int
  missing : Int
  leftChild : Int
  rightChild : Int

/-- The index of the feature: a number, or the text behind the first three characters of a name. -/
def readSplit (node : Json N) : Except GbdtError Int :=
  match (node.get "split").asI64 num with
  | some v => .ok v
  | none => do
    let name ← orError (node.get "split").asStr "parse 'split' error"
    match num.parseI64 (String.ofList (name.toList.drop 3)) with
    | some v => .ok v
    | none => .error .parseInt

/-- The fields of a node with children, in the order in which they are read. -/
def readInfo (node : Json N) : Except GbdtError (SplitInfo V) := do
  let featureValue ← orError ((node.get "split_condition").asF64 num) "parse 'split condition' error"
  let featureIndex ← readSplit num node
  let missing ← orError ((node.get "missing").asI64 num) "parse 'missing' error"
  let leftChild ← orError ((node.get "yes").asI64 num) "parse 'yes' error"
  let rightChild ← orError ((node.get "no").asI64 num) "parse 'no' error"
  .ok ⟨A.asValue featureValue, featureIndex, missing, leftChild, rightChild⟩

/-- The value that is stored. A negative index becomes a large one by the cast to `usize`. -/
def SplitInfo.node (info : SplitInfo V) : Except GbdtError (DTNode V) :=
  let value : DTNode V := { DTNode.new with
    featureValue := info.featureValue
    featureIndex := (info.featureIndex % 2 ^ 64).toNat }
  if info.missing = info.leftChild then .ok { value with missing := -1 }
  else if info.missing = info.rightChild then .ok { value with missing := 1 }
  else .error .notSupportExtraMissingNode

mutual

/-- `add_node_from_json`, for a node that is new. -/
def addNodeFromJson (tree : BinaryTree (DTNode V)) (index : Nat) (node : Json N) :
    Except GbdtError (BinaryTree (DTNode V)) :=
  match node.get "leaf" with
  | .number pred =>
    match num.asF64 pred with
    | none => .error (.io "parse 'leaf' error")
    | some leaf => .ok (tree.updateNode index fun n =>
        { n with value := { (DTNode.new : DTNode V) with pred := A.asValue leaf, isLeaf := true } })
  | _ =>
    match readInfo A num node with
    | .error e => .error e
    | .ok info =>
      match info.node with
      | .error e => .error e
      | .ok value =>
        match _h : (node.get "children").asArray with
        | none => .error (.io "parse 'children' error")
        | some children =>
          addChildren (tree.updateNode index fun n => { n with value := value }) index info
            false false children
termination_by (sizeOf node, 0)
decreasing_by
  exact Prod.Lex.left _ _ (Json.sizeOf_get_lt _h)

/-- The loop over the children, with what has been found. -/
def addChildren (tree : BinaryTree (DTNode V)) (index : Nat) (info : SplitInfo V)
    (findLeft findRight : Bool) : List (Json N) → Except GbdtError (BinaryTree (DTNode V))
  | [] => if findLeft && findRight then .ok tree else .error .childrenNotFound
  | child :: rest =>
    match (child.get "nodeid").asI64 num with
    | none => .error (.io "parse 'nodeid' error")
    | some nodeId =>
      match (if nodeId = info.leftChild then
          let (tree, left) := tree.addLeftNode index (BinaryTreeNode.new DTNode.new)
          addNodeFromJson tree left child
        else .ok tree) with
      | .error e => .error e
      | .ok tree =>
        match (if nodeId = info.rightChild then
            let (tree, right) := tree.addRightNode index (BinaryTreeNode.new DTNode.new)
            addNodeFromJson tree right child
          else .ok tree) with
        | .error e => .error e
        | .ok tree =>
          addChildren tree index info (findLeft || decide (nodeId = info.leftChild))
            (findRight || decide (nodeId = info.rightChild)) rest
termination_by children => (sizeOf children, 1)
decreasing_by
  all_goals
    apply Prod.Lex.left
    simp only [List.cons.sizeOf_spec]
    omega

end

/-- `get_from_xgboost` -/
def getFromXgboost [One F] (node : Json N) : Except GbdtError (DecisionTree V F) :=
  let dt : DecisionTree V F := DecisionTree.new
  let (tree, index) := dt.tree.addRoot (BinaryTreeNode.new DTNode.new)
  match addNodeFromJson A num tree index node with
  | .error e => .error e
  | .ok tree => .ok { dt with tree := tree }

/-! ### The value of a JSON tree -/

/-- The id that a child is asked for by. -/
def childId (child : Json N) : Option Int := (child.get "nodeid").asI64 num

/-- The child with an id. Should an id occur twice, the later child counts. -/
def lastChild (id : Int) (children : List (Json N)) : Option (Json N) :=
  (children.filter fun child => childId num child = some id).getLast?

/-- The id of the child that a node asks for, by the value of its feature. -/
def SplitInfo.target (info : SplitInfo V) (v : V) : Int :=
  if v = A.unknown then info.missing
  else if v < info.featureValue then info.leftChild
  else info.rightChild

/-- No number stands at `leaf`. -/
def IsSplit (node : Json N) : Prop := ∀ n, node.get "leaf" ≠ .number n

/-- The value of a tree for a sample: that of a leaf, or of the child that the node asks for. -/
inductive Evaluates (x : Data V) : Json N → V → Prop where
  | leaf {node : Json N} {n : N} {q : F} (hleaf : node.get "leaf" = .number n)
      (hq : num.asF64 n = some q) : Evaluates x node (A.asValue q)
  | split {node child : Json N} {info : SplitInfo V} {children : List (Json N)} {v w : V}
      (hsplit : IsSplit node) (hinfo : readInfo A num node = .ok info)
      (hchildren : (node.get "children").asArray = some children)
      (hvalue : x.feature[info.featureIndex.toNat]? = some v)
      (hchild : lastChild num (info.target A v) children = some child)
      (hw : Evaluates x child w) : Evaluates x node w

/-- A node and all that are below it. -/
inductive Below : Json N → Json N → Prop where
  | self (node : Json N) : Below node node
  | child {node c sub : Json N} {children : List (Json N)}
      (hchildren : (node.get "children").asArray = some children) (hc : c ∈ children)
      (hsub : Below c sub) : Below node sub

/-- The sample has the features of all nodes, whose indices are not negative. -/
def Enough (node : Json N) (x : Data V) : Prop :=
  ∀ sub, Below node sub → IsSplit sub → ∀ i, readSplit num sub = .ok i →
    0 ≤ i ∧ i < x.feature.length

variable {A num}

variable {node : Json N}

omit [Zero V] in
/-- A tree has one value for a sample. -/
theorem evaluates_unique {x : Data V} {v w : V} (hv : Evaluates A num x node v)
    (hw : Evaluates A num x node w) : v = w := by
  induction hv with
  | leaf hleaf hq =>
    cases hw with
    | leaf hleaf' hq' =>
      rw [hleaf, Json.number.injEq] at hleaf'
      subst hleaf'
      rw [hq, Option.some.injEq] at hq'
      rw [hq']
    | split hsplit _ _ _ _ _ => exact absurd hleaf (hsplit _)
  | split hsplit hinfo hchildren hvalue hchild _ ih =>
    cases hw with
    | leaf hleaf _ => exact absurd hleaf (hsplit _)
    | split _ hinfo' hchildren' hvalue' hchild' hw' =>
      rw [hinfo, Except.ok.injEq] at hinfo'
      subst hinfo'
      rw [hchildren, Option.some.injEq] at hchildren'
      subst hchildren'
      rw [hvalue, Option.some.injEq] at hvalue'
      subst hvalue'
      rw [hchild, Option.some.injEq] at hchild'
      subst hchild'
      exact ih hw'

/-! ### What is read -/

theorem readSplit_lt {i : Int} (h : readSplit num node = .ok i) : i < 2 ^ 63 := by
  unfold readSplit at h
  cases hsplit : (node.get "split").asI64 num with
  | some v =>
    rw [hsplit] at h
    have hv : v = i := by simpa using h
    subst hv
    cases hjson : node.get "split" with
    | number n =>
      rw [hjson] at hsplit
      exact num.asI64_lt n v hsplit
    | _ =>
      rw [hjson] at hsplit
      exact absurd hsplit (by simp [Json.asI64])
  | none =>
    rw [hsplit] at h
    cases hname : orError (node.get "split").asStr "parse 'split' error" with
    | error e =>
      rw [hname] at h
      exact absurd h (by simp [bind, Except.bind])
    | ok name =>
      rw [hname] at h
      cases hparse : num.parseI64 (String.ofList (name.toList.drop 3)) with
      | none => exact absurd h (by simp [bind, Except.bind, hparse])
      | some v =>
        have hv : v = i := by simpa [bind, Except.bind, hparse] using h
        subst hv
        exact num.parseI64_lt _ v hparse

variable {info : SplitInfo V}

omit [LinearOrder V] [Zero V] in
theorem readInfo_split (h : readInfo A num node = .ok info) :
    readSplit num node = .ok info.featureIndex := by
  unfold readInfo at h
  cases h₁ : orError ((node.get "split_condition").asF64 num) "parse 'split condition' error" with
  | error e => exact absurd h (by simp [bind, Except.bind, h₁])
  | ok featureValue =>
    cases h₂ : readSplit num node with
    | error e => exact absurd h (by simp [bind, Except.bind, h₁, h₂])
    | ok featureIndex =>
      cases h₃ : orError ((node.get "missing").asI64 num) "parse 'missing' error" with
      | error e => exact absurd h (by simp [bind, Except.bind, h₁, h₂, h₃])
      | ok missing =>
        cases h₄ : orError ((node.get "yes").asI64 num) "parse 'yes' error" with
        | error e => exact absurd h (by simp [bind, Except.bind, h₁, h₂, h₃, h₄])
        | ok leftChild =>
          cases h₅ : orError ((node.get "no").asI64 num) "parse 'no' error" with
          | error e => exact absurd h (by simp [bind, Except.bind, h₁, h₂, h₃, h₄, h₅])
          | ok rightChild =>
            have hinfo : info = ⟨A.asValue featureValue, featureIndex, missing, leftChild,
                rightChild⟩ := by
              simpa [bind, Except.bind, h₁, h₂, h₃, h₄, h₅, eq_comm] using h
            rw [hinfo]

variable {value : DTNode V}

omit [LinearOrder V] in
/-- The value that is stored for a node with children. -/
theorem node_ok (h : info.node = .ok value) :
    value.isLeaf = false ∧ value.featureIndex = (info.featureIndex % 2 ^ 64).toNat ∧
      value.featureValue = info.featureValue ∧
      (info.missing = info.leftChild ∧ value.missing = -1 ∨
        info.missing = info.rightChild ∧ value.missing = 1) := by
  unfold SplitInfo.node at h
  split_ifs at h with hleft hright
  · rw [Except.ok.injEq] at h
    subst h
    exact ⟨rfl, rfl, rfl, Or.inl ⟨hleft, rfl⟩⟩
  · rw [Except.ok.injEq] at h
    subst h
    exact ⟨rfl, rfl, rfl, Or.inr ⟨hright, rfl⟩⟩

/-- The turn at a stored node is to the child that the node asks for. -/
theorem turn_node (h : info.node = .ok value) {x : Data V} (hneg : 0 ≤ info.featureIndex)
    (hlt : info.featureIndex < 2 ^ 63) {v : V}
    (hv : x.feature[info.featureIndex.toNat]? = some v) :
    ∃ t, turn A value x = some t ∧
      (t = .left ∧ info.target A v = info.leftChild ∨
        t = .right ∧ info.target A v = info.rightChild) := by
  obtain ⟨hleaf, hindex, hvalue, hmissing⟩ := node_ok h
  rw [Int.emod_eq_of_lt hneg (by omega)] at hindex
  have hnot : ¬value.isLeaf = true := by
    rw [hleaf]
    exact Bool.false_ne_true
  unfold SplitInfo.target turn
  rw [if_neg hnot, hindex, hv, hvalue]
  dsimp only
  by_cases hu : v = A.unknown
  · rw [if_pos hu, if_pos hu]
    rcases hmissing with ⟨hid, hm⟩ | ⟨hid, hm⟩
    · rw [if_pos hm]
      exact ⟨_, rfl, Or.inl ⟨rfl, hid⟩⟩
    · rw [if_neg (by omega), if_neg (by omega)]
      exact ⟨_, rfl, Or.inr ⟨rfl, hid⟩⟩
  · rw [if_neg hu, if_neg hu]
    by_cases hless : v < info.featureValue
    · rw [if_pos hless, if_pos hless]
      exact ⟨_, rfl, Or.inl ⟨rfl, rfl⟩⟩
    · rw [if_neg hless, if_neg hless]
      exact ⟨_, rfl, Or.inr ⟨rfl, rfl⟩⟩

/-! ### What is stored -/

variable (A num) in
/-- The tree below a node has the value of a JSON tree. -/
def Stores (tree : BinaryTree (DTNode V)) (k : Nat) (node : Json N) : Prop :=
  ∃ s, tree.Represents k s ∧ s.Marked ∧
    ∀ x, Enough num node x → ∃ v, s.predict A x = some v ∧ Evaluates A num x node v

variable {k : Nat} {tree' tree : BinaryTree (DTNode V)}

omit [Zero V] in
theorem Stores.of_sameBut {j : Nat} (h : Stores A num tree k node)
    (hsame : BinaryTree.SameBut j tree tree') (hj : j < k) :
    Stores A num tree' k node := by
  obtain ⟨s, hs, hrest⟩ := h
  exact ⟨s, hs.of_sameBut hsame (Or.inl hj), hrest⟩

/-- What `add_node_from_json` does at a node of the tree. -/
def Adds (num : Numbers N F) (A : Arith V F) (node : Json N) : Prop :=
  ∀ (tree tree' : BinaryTree (DTNode V)) (k : Nat), k < tree.len →
    addNodeFromJson A num tree k node = .ok tree' →
      BinaryTree.SameBut k tree tree' ∧ Stores A num tree' k node

/-- A child that is built on one side of its parent. -/
theorem adds_child (hadds : Adds num A node) {n : BinaryTreeNode (DTNode V)}
    (hn : tree.getNode k = some n) (isLeft : Bool)
    (h : addNodeFromJson A num (tree.addNode k isLeft (BinaryTreeNode.new DTNode.new)).1 tree.len
      node = .ok tree') :
    BinaryTree.SameBut k tree tree' ∧
      tree'.getNode k =
        some (if isLeft then { n with left := tree.len } else { n with right := tree.len }) ∧
      Stores A num tree' tree.len node := by
  have hk := BinaryTree.lt_len_of_getNode hn
  have hlen := (BinaryTree.len_addNode tree k isLeft (BinaryTreeNode.new DTNode.new)).1
  obtain ⟨hsame, hstores⟩ := hadds _ tree' tree.len (by omega) h
  refine ⟨(BinaryTree.sameBut_addNode tree k isLeft _).of_new hsame, ?_, hstores⟩
  rw [hsame.2 k (by omega) (by omega), BinaryTree.getNode_addNode_parent hn]

theorem lastChild_concat (id : Int) (children : List (Json N)) (child : Json N) :
    lastChild num id (children ++ [child]) =
      if childId num child = some id then some child else lastChild num id children := by
  unfold lastChild
  by_cases h : childId num child = some id
  · simp [h]
  · simp [h]

variable (A num) in
/-- The last child with an id hangs on a link of the node at `k`. -/
def Hangs (id : Int) (done : List (Json N)) (tree : BinaryTree (DTNode V)) (k link : Nat) : Prop :=
  ∀ c ∈ lastChild num id done, k < link ∧ Stores A num tree link c

variable {done : List (Json N)}

variable {id : Int}

omit [Zero V] in
theorem Hangs.of_sameBut {link : Nat} (h : Hangs A num id done tree k link)
    (hsame : BinaryTree.SameBut k tree tree') :
    Hangs A num id done tree' k link := by
  intro c hc
  obtain ⟨hlt, hstores⟩ := h c hc
  exact ⟨hlt, hstores.of_sameBut hsame hlt⟩

variable {child : Json N}

omit [Zero V] in
/-- A child with another id changes nothing. -/
theorem Hangs.concat_ne {link : Nat} (h : Hangs A num id done tree k link)
    (hne : childId num child ≠ some id) : Hangs A num id (done ++ [child]) tree k link := by
  intro c hc
  rw [lastChild_concat, if_neg hne] at hc
  exact h c hc

omit [Zero V] in
/-- A child with the id takes the place of an earlier one. -/
theorem hangs_concat {link : Nat} (hid : childId num child = some id) (hlt : k < link)
    (hstores : Stores A num tree link child) : Hangs A num id (done ++ [child]) tree k link := by
  intro c hc
  rw [lastChild_concat, if_pos hid, Option.mem_def, Option.some.injEq] at hc
  rw [← hc]
  exact ⟨hlt, hstores⟩

theorem isSome_lastChild_concat {nodeId : Int} (done : List (Json N))
    (hid : childId num child = some nodeId) :
    (lastChild num id (done ++ [child])).isSome =
      ((lastChild num id done).isSome || decide (nodeId = id)) := by
  rw [lastChild_concat, hid]
  by_cases h : nodeId = id
  · simp [h]
  · simp [h]

/-- The state of the loop over the children: what has been found hangs on the parent. -/
structure ChildrenDone (A : Arith V F) (num : Numbers N F) (info : SplitInfo V) (value : DTNode V)
    (k : Nat) (tree : BinaryTree (DTNode V)) (done : List (Json N)) : Prop where
  parent : ∃ n, tree.getNode k = some n ∧ n.value = value ∧
    Hangs A num info.leftChild done tree k n.left ∧
    Hangs A num info.rightChild done tree k n.right

/-- One child of the loop: it is built on the left, on the right, on both sides or not at all. -/
theorem ChildrenDone.step {tree₁ tree₂ : BinaryTree (DTNode V)} {nodeId : Int}
    (h : ChildrenDone A num info value k tree done) (hadds : Adds num A child)
    (hid : childId num child = some nodeId)
    (h₁ : (if nodeId = info.leftChild then
      addNodeFromJson A num (tree.addNode k true (BinaryTreeNode.new DTNode.new)).1 tree.len child
      else .ok tree) = .ok tree₁)
    (h₂ : (if nodeId = info.rightChild then
      addNodeFromJson A num (tree₁.addNode k false (BinaryTreeNode.new DTNode.new)).1 tree₁.len child
      else .ok tree₁) = .ok tree₂) :
    BinaryTree.SameBut k tree tree₂ ∧
      ChildrenDone A num info value k tree₂ (done ++ [child]) := by
  obtain ⟨n, hn, hvalue, hleft, hright⟩ := h.parent
  -- the left side
  have hafter : BinaryTree.SameBut k tree tree₁ ∧ ∃ n₁, tree₁.getNode k = some n₁ ∧
      n₁.value = value ∧ n₁.right = n.right ∧
      Hangs A num info.leftChild (done ++ [child]) tree₁ k n₁.left := by
    by_cases hl : nodeId = info.leftChild
    · rw [if_pos hl] at h₁
      obtain ⟨hsame, hnode, hstores⟩ := adds_child hadds hn true h₁
      refine ⟨hsame, _, hnode, hvalue, rfl, ?_⟩
      exact hangs_concat (by rw [hid, hl]) (BinaryTree.lt_len_of_getNode hn) hstores
    · rw [if_neg hl, Except.ok.injEq] at h₁
      subst h₁
      refine ⟨BinaryTree.SameBut.refl k tree, n, hn, hvalue, rfl, hleft.concat_ne ?_⟩
      rw [hid]
      exact fun heq => hl (Option.some.inj heq)
  obtain ⟨hsame₁, n₁, hn₁, hvalue₁, hright₁, hleft₁⟩ := hafter
  have hright' := hright.of_sameBut hsame₁
  rw [← hright₁] at hright'
  -- the right side
  by_cases hr : nodeId = info.rightChild
  · rw [if_pos hr] at h₂
    obtain ⟨hsame₂, hnode, hstores⟩ := adds_child hadds hn₁ false h₂
    refine ⟨hsame₁.trans hsame₂, ⟨_, hnode, hvalue₁, hleft₁.of_sameBut hsame₂, ?_⟩⟩
    exact hangs_concat (by rw [hid, hr]) (BinaryTree.lt_len_of_getNode hn₁) hstores
  · rw [if_neg hr, Except.ok.injEq] at h₂
    subst h₂
    refine ⟨hsame₁, ⟨n₁, hn₁, hvalue₁, hleft₁, hright'.concat_ne ?_⟩⟩
    rw [hid]
    exact fun heq => hr (Option.some.inj heq)

/-- **The loop over the children.** At its end both children have been found. -/
theorem addChildren_ok (rest : List (Json N)) :
    ∀ {tree tree' : BinaryTree (DTNode V)} {findLeft findRight : Bool} {done : List (Json N)},
      (∀ child ∈ rest, Adds num A child) → ChildrenDone A num info value k tree done →
      findLeft = (lastChild num info.leftChild done).isSome →
      findRight = (lastChild num info.rightChild done).isSome →
      addChildren A num tree k info findLeft findRight rest = .ok tree' →
        BinaryTree.SameBut k tree tree' ∧
          ChildrenDone A num info value k tree' (done ++ rest) ∧
          (lastChild num info.leftChild (done ++ rest)).isSome ∧
          (lastChild num info.rightChild (done ++ rest)).isSome := by
  induction rest with
  | nil =>
    intro tree tree' findLeft findRight done _ hdone hl hr h
    rw [addChildren] at h
    split_ifs at h with hfound
    · rw [Except.ok.injEq] at h
      subst h
      rw [Bool.and_eq_true] at hfound
      rw [List.append_nil, ← hl, ← hr]
      exact ⟨BinaryTree.SameBut.refl k tree, hdone, hfound.1, hfound.2⟩
  | cons child rest ih =>
    intro tree tree' findLeft findRight done hadds hdone hl hr h
    rw [addChildren] at h
    cases hid : (child.get "nodeid").asI64 num with
    | none =>
      rw [hid] at h
      exact absurd h (by simp)
    | some nodeId =>
      rw [hid] at h
      dsimp only at h
      unfold BinaryTree.addLeftNode BinaryTree.addRightNode at h
      rw [(BinaryTree.len_addNode tree k true (BinaryTreeNode.new DTNode.new)).2] at h
      split at h
      · exact absurd h (by simp)
      · rename_i tree₁ h₁
        rw [(BinaryTree.len_addNode tree₁ k false (BinaryTreeNode.new DTNode.new)).2] at h
        split at h
        · exact absurd h (by simp)
        · rename_i tree₂ h₂
          obtain ⟨hsame, hdone'⟩ := hdone.step (hadds child (List.mem_cons_self ..)) hid h₁ h₂
          have hend := ih (fun c hc => hadds c (List.mem_cons_of_mem _ hc)) hdone'
            (by rw [isSome_lastChild_concat done hid, ← hl])
            (by rw [isSome_lastChild_concat done hid, ← hr]) h
          rw [List.append_assoc, List.singleton_append] at hend
          exact ⟨hsame.trans hend.1, hend.2⟩

variable {children : List (Json N)}

theorem mem_of_lastChild (h : lastChild num id children = some child) :
    child ∈ children := by
  have hmem := List.mem_of_getLast? h
  exact (List.mem_filter.mp hmem).1

/-- A leaf is stored as a leaf. -/
theorem stores_leaf (hk : k < tree.len) {n : N} {q : F} (hleaf : node.get "leaf" = .number n)
    (hq : num.asF64 n = some q) :
    Stores A num (tree.updateNode k fun n =>
      { n with value := { (DTNode.new : DTNode V) with pred := A.asValue q, isLeaf := true } })
      k node := by
  obtain ⟨m, hm⟩ : ∃ m, tree.getNode k = some m := ⟨_, List.getElem?_eq_getElem hk⟩
  refine ⟨.leaf { (DTNode.new : DTNode V) with pred := A.asValue q, isLeaf := true }, ?_, rfl, ?_⟩
  · refine ⟨{ m with value := _ }, ?_, rfl⟩
    simp [BinaryTree.getNode_updateNode_self, hm]
  · intro x _
    exact ⟨A.asValue q, rfl, Evaluates.leaf hleaf hq⟩

/-- A node with two stored children. -/
theorem stores_split (hsplit : IsSplit node) (hinfo : readInfo A num node = .ok info)
    (hvalue : info.node = .ok value) (hchildren : (node.get "children").asArray = some children)
    (hdone : ChildrenDone A num info value k tree children)
    (hfoundLeft : (lastChild num info.leftChild children).isSome)
    (hfoundRight : (lastChild num info.rightChild children).isSome) :
    Stores A num tree k node := by
  obtain ⟨cl, hcl⟩ := Option.isSome_iff_exists.mp hfoundLeft
  obtain ⟨cr, hcr⟩ := Option.isSome_iff_exists.mp hfoundRight
  obtain ⟨n, hn, hnvalue, hleft, hright⟩ := hdone.parent
  obtain ⟨hl, l, hreprl, hmarkl, hpredl⟩ := hleft cl hcl
  obtain ⟨hr, r, hreprr, hmarkr, hpredr⟩ := hright cr hcr
  refine ⟨.node value l r, ⟨n, hn, hnvalue, hl, hr, hreprl, hreprr⟩, ⟨hmarkl, hmarkr⟩, ?_⟩
  intro x hx
  -- the feature of the node is there
  have hread := readInfo_split hinfo
  obtain ⟨hneg, hlen⟩ := hx node (Below.self node) hsplit _ hread
  obtain ⟨v, hv⟩ : ∃ v, x.feature[info.featureIndex.toNat]? = some v :=
    ⟨_, List.getElem?_eq_getElem (by omega)⟩
  have hbelow : ∀ c ∈ children, Enough num c x := by
    intro c hc sub hsub
    exact hx sub (Below.child hchildren hc hsub)
  obtain ⟨t, ht, hside⟩ := turn_node hvalue hneg (readSplit_lt hread) hv
  rw [Shape.predict, ht]
  rcases hside with ⟨rfl, htarget⟩ | ⟨rfl, htarget⟩
  · obtain ⟨w, hw, heval⟩ := hpredl x (hbelow cl (mem_of_lastChild hcl))
    rw [← htarget] at hcl
    exact ⟨w, hw, Evaluates.split hsplit hinfo hchildren hv hcl heval⟩
  · obtain ⟨w, hw, heval⟩ := hpredr x (hbelow cr (mem_of_lastChild hcr))
    rw [← htarget] at hcr
    exact ⟨w, hw, Evaluates.split hsplit hinfo hchildren hv hcr heval⟩

omit [LinearOrder V] in
/-- `add_node_from_json` at a node without a value. -/
theorem addNodeFromJson_split (hsplit : IsSplit node)
    (h : addNodeFromJson A num tree k node = .ok tree') :
    ∃ info value children, readInfo A num node = .ok info ∧ info.node = .ok value ∧
      (node.get "children").asArray = some children ∧
      addChildren A num (tree.updateNode k fun n => { n with value := value }) k info false false
        children = .ok tree' := by
  rw [addNodeFromJson] at h
  split at h
  · rename_i n hleaf
    exact absurd hleaf (hsplit n)
  · split at h
    · exact absurd h (by simp)
    · rename_i info hinfo
      split at h
      · exact absurd h (by simp)
      · rename_i value hvalue
        split at h
        · exact absurd h (by simp)
        · rename_i children hchildren
          exact ⟨info, value, children, hinfo, hvalue, hchildren, h⟩

omit [LinearOrder V] in
theorem addNodeFromJson_children (hsplit : IsSplit node) (hinfo : readInfo A num node = .ok info)
    (hvalue : info.node = .ok value) (hchildren : (node.get "children").asArray = some children) :
    addNodeFromJson A num tree k node =
      addChildren A num (tree.updateNode k fun n => { n with value := value }) k info false false
        children := by
  rw [addNodeFromJson]
  split
  · rename_i n hleaf
    exact absurd hleaf (hsplit n)
  · rw [hinfo]
    dsimp only
    rw [hvalue]
    dsimp only
    split
    · rename_i hnone
      exact absurd (hchildren.symm.trans hnone) (by simp)
    · rename_i children' hsome
      rw [hchildren, Option.some.injEq] at hsome
      rw [hsome]

/-- **What is stored below a node that is built** is the tree of the JSON value, and the nodes that
    were there stay. -/
theorem addNodeFromJson_ok (node : Json N) : Adds num A node := by
  induction hsize : sizeOf node using Nat.strong_induction_on generalizing node with
  | _ size ih =>
    intro tree tree' k hk h
    by_cases hleaf : ∃ n, node.get "leaf" = .number n
    · obtain ⟨n, hn⟩ := hleaf
      rw [addNodeFromJson, hn] at h
      dsimp only at h
      cases hq : num.asF64 n with
      | none =>
        rw [hq] at h
        exact absurd h (by simp)
      | some q =>
        rw [hq] at h
        rw [Except.ok.injEq] at h
        subst h
        exact ⟨BinaryTree.sameBut_updateNode tree k _, stores_leaf hk hn hq⟩
    · have hsplit : IsSplit node := fun n hn => hleaf ⟨n, hn⟩
      obtain ⟨info, value, children, hinfo, hvalue, hchildren, hadd⟩ :=
        addNodeFromJson_split hsplit h
      -- children are smaller than the node
      have hadds : ∀ child ∈ children, Adds num A child := by
        intro child hchild
        have hlt := lt_trans (List.sizeOf_lt_of_mem hchild) (Json.sizeOf_get_lt hchildren)
        exact ih (sizeOf child) (by omega) child rfl
      obtain ⟨m, hm⟩ : ∃ m, tree.getNode k = some m := ⟨_, List.getElem?_eq_getElem hk⟩
      have hstart : ChildrenDone A num info value k
          (tree.updateNode k fun n => { n with value := value }) [] := by
        refine ⟨{ m with value := value }, ?_, rfl, ?_, ?_⟩
        · simp [BinaryTree.getNode_updateNode_self, hm]
        · exact fun c hc => absurd hc (by simp [lastChild])
        · exact fun c hc => absurd hc (by simp [lastChild])
      obtain ⟨hsame, hdone, hl, hr⟩ := addChildren_ok children hadds hstart rfl rfl hadd
      exact ⟨(BinaryTree.sameBut_updateNode tree k _).trans hsame,
        stores_split hsplit hinfo hvalue hchildren hdone hl hr⟩

/-- **Imported trees keep their meaning.** Whenever a tree is built, the prediction for a sample
    with enough features is there, and it is the value of the JSON tree. -/
theorem predict_xgboost [One F] {node : Json N} {dt : DecisionTree V F}
    (h : getFromXgboost A num node = .ok dt) {x : Data V} (hx : Enough num node x) :
    ∃ v, dt.predictRoot A x = some v ∧ ∀ w, Evaluates A num x node w ↔ w = v := by
  unfold getFromXgboost at h
  dsimp only at h
  have hroot := (BinaryTree.len_addNode (DecisionTree.new : DecisionTree V F).tree 0 false
    (BinaryTreeNode.new DTNode.new))
  have hnil : (DecisionTree.new : DecisionTree V F).tree.len = 0 := rfl
  rw [hnil] at hroot
  unfold BinaryTree.addRoot at h
  rw [hroot.2] at h
  split at h
  · exact absurd h (by simp)
  · rename_i tree htree
    rw [Except.ok.injEq] at h
    subst h
    obtain ⟨-, s, hs, hmarked, hpred⟩ := addNodeFromJson_ok node _ tree 0 (by omega) htree
    obtain ⟨v, hv, heval⟩ := hpred x hx
    refine ⟨v, ?_, fun w => ⟨fun hw => evaluates_unique hw heval, fun hw => hw ▸ heval⟩⟩
    rw [← hv]
    exact predictRoot_represents hs hmarked x

end

/-- Numbers that are rationals. An index is a whole number of 64 bits. -/
def Numbers.rat : Numbers ℚ ℚ where
  asF64 q := some q
  asI64 q := if q.den = 1 ∧ -2 ^ 63 ≤ q.num ∧ q.num < 2 ^ 63 then some q.num else none
  parseI64 s := s.toInt?.filter fun v => -2 ^ 63 ≤ v ∧ v < 2 ^ 63
  asI64_lt := by
    intro q v h
    split_ifs at h with hq
    · rw [← Option.some.inj h]
      exact hq.2.2
  parseI64_lt := by
    intro s v h
    have hrange := (Option.filter_eq_some_iff.mp h).2
    exact (decide_eq_true_iff.mp hrange).2

/-- Two leaves, the right one in front. -/
def twoLeaves.leaves : List (Json ℚ) :=
  [.object [("nodeid", .number 2), ("leaf", .number 5)],
    .object [("nodeid", .number 1), ("leaf", .number 3)]]

/-- A node with two leaves. -/
def twoLeaves : Json ℚ :=
  .object [("nodeid", .number 0), ("split", .number 0), ("split_condition", .number (1 / 2)),
    ("yes", .number 1), ("no", .number 2), ("missing", .number 2),
    ("children", .array twoLeaves.leaves)]

theorem twoLeaves_ok : ∃ dt : DecisionTree ℚ ℚ,
    getFromXgboost Arith.rat Numbers.rat twoLeaves = .ok dt := by
  have hinfo : readInfo Arith.rat Numbers.rat twoLeaves = .ok ⟨1 / 2, 0, 2, 1, 2⟩ := rfl
  have hsplit : IsSplit twoLeaves := by
    intro n hn
    have hnull : (Json.null : Json ℚ) = .number n := hn
    exact absurd hnull (by simp)
  have hchildren : (twoLeaves.get "children").asArray = some twoLeaves.leaves := rfl
  unfold getFromXgboost
  dsimp only
  rw [addNodeFromJson_children hsplit hinfo rfl hchildren]
  simp [addChildren, twoLeaves.leaves, Json.get, Json.asI64, Numbers.rat, addNodeFromJson]

theorem predict_xgboost_twoLeaves : ∃ dt : DecisionTree ℚ ℚ,
    getFromXgboost Arith.rat Numbers.rat twoLeaves = .ok dt ∧
      ∃ v, dt.predictRoot Arith.rat ⟨[0], 0, 1, 0, 0, 0⟩ = some v ∧
        ∀ w, Evaluates Arith.rat Numbers.rat ⟨[0], 0, 1, 0, 0, 0⟩ twoLeaves w ↔ w = v := by
  obtain ⟨dt, hdt⟩ := twoLeaves_ok
  refine ⟨dt, hdt, predict_xgboost hdt ?_⟩
  intro sub hsub hsplit i hi
  cases hsub with
  | self =>
    have hread : readSplit Numbers.rat twoLeaves = .ok 0 := rfl
    rw [hread, Except.ok.injEq] at hi
    subst hi
    exact ⟨le_rfl, by decide⟩
  | child hchildren hc hsub =>
    have hleaves : (twoLeaves.get "children").asArray = some twoLeaves.leaves := rfl
    rw [hleaves, Option.some.injEq] at hchildren
    subst hchildren
    simp only [twoLeaves.leaves, List.mem_cons, List.not_mem_nil, or_false] at hc
    rcases hc with rfl | rfl
    all_goals
      cases hsub with
      | self => exact absurd rfl (hsplit _)
      | child hchildren _ _ =>
        exact absurd hchildren (by simp [Json.get, Json.asArray])

end TeaclaveCrates.Gbdt
