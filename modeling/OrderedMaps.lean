import OrderedMaps.AvlMap.Cursor
import OrderedMaps.Contract.Reference
import OrderedMaps.Proofs.Contract.Change
import OrderedMaps.Proofs.Contract.Effect
import OrderedMaps.Proofs.Avl.Edit
import OrderedMaps.Proofs.Avl.Shape
import OrderedMaps.Proofs.Avl.Repair
import OrderedMaps.Proofs.Avl.Stored
import OrderedMaps.Proofs.Avl.Overwrite
import OrderedMaps.Proofs.Avl.Balance
import OrderedMaps.Proofs.Avl.Subtree
import OrderedMaps.Proofs.Avl.Descent
import OrderedMaps.Proofs.Avl.Insert
import OrderedMaps.Proofs.Avl.Erase
import OrderedMaps.Proofs.Avl.Lookup
import OrderedMaps.Proofs.Avl.Walk
import OrderedMaps.Proofs.Avl.Audit
import OrderedMaps.Proofs.AvlMap.SingleKey
import OrderedMaps.Proofs.AvlMap.Effect
import OrderedMaps.Proofs.AvlMap.Rebalancing
import OrderedMaps.Proofs.AvlMap.Refinement
import OrderedMaps.Proofs.AvlMap.Session
import OrderedMaps.Proofs.AvlMap.Iteration
import OrderedMaps.Proofs.AvlMap.Spot
import OrderedMaps.Proofs.BTree.Node
import OrderedMaps.Proofs.BTree.Steps
import OrderedMaps.Proofs.BTree.Surgery
import OrderedMaps.Proofs.BTree.Locator
import OrderedMaps.Proofs.BTree.Search
import OrderedMaps.Proofs.BTree.Erase
import OrderedMaps.Proofs.BTree.Audit
import OrderedMaps.Proofs.BTree.Range
import OrderedMaps.Proofs.BTreeMap.Effect
import OrderedMaps.Proofs.BTreeMap.Refinement
import OrderedMaps.Proofs.BTreeMap.Session
import OrderedMaps.Proofs.BTreeMap.Verdict
import OrderedMaps.Proofs.Reachable
import OrderedMaps.Proofs.AvlMap.Untouched
import OrderedMaps.Proofs.AvlMap.Agreement
import OrderedMaps.Proofs.AvlMap.Traversal
import OrderedMaps.Proofs.AvlMap.Height
import OrderedMaps.Proofs.BTreeMap.Height
import OrderedMaps.Proofs.BTreeMap.Restructuring
import OrderedMaps.Proofs.BTreeMap.Untouched
import OrderedMaps.Proofs.Conservation
import OrderedMaps.Proofs.RangeLaw
import OrderedMaps.Proofs.Versioned
import OrderedMaps.Proofs.SlotPool.Ledger
import OrderedMaps.Proofs.AvlMap.Scan
import OrderedMaps.Proofs.Avl.Mirror
import OrderedMaps.Proofs.AvlMap.Mirror
import OrderedMaps.Proofs.Comparator.Standard
import OrderedMaps.Proofs.BTree.Filling
import OrderedMaps.Proofs.BTree.Inverses
