import R2.Fwd.Ethernet

namespace R2

/-- Which of the control thread's two route tables an `Arc` points to. -/
inductive V4Table
  | table1
  | table2
deriving DecidableEq, Repr

/-- The messages between the control thread and the graph nodes. The payloads
of the other kinds are not read by the modelled nodes. -/
inductive R2Msg
  | gnodeAdd
  | epollAdd
  | ipv4TableAdd (table : V4Table)
  | modifyInterface (intf : Interface)
  | ethMacAdd (msg : EthMacAddMsg)
  | classAdd

end R2
