import KoScripts.Servers.Grammar
import KoScripts.Servers.AcceptBounds
import KoScripts.Servers.ThreadServerRefines
import KoScripts.Servers.UvServerDisconnect
import KoScripts.Servers.UvServerKillSwitch
import KoScripts.Clients.EpollClients
import KoScripts.Clients.SelectClients
import KoScripts.Clients.PrimeClient
import KoScripts.Concurrency.MpmcRest
import KoScripts.Concurrency.SemaphoreBuffer
import KoScripts.Concurrency.SemaphoreProgram
import KoScripts.DataStruct.Hash
import KoScripts.Protobuf.Cleanup
import KoScripts.Protobuf.WaitReply
import KoScripts.Tools.IcmpSniffer
import KoScripts.Tools.FileCounterLimit
