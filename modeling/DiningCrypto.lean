import DiningCrypto.Java
import DiningCrypto.PairMask
import DiningCrypto.EdgeMasks
import DiningCrypto.Cipher
import DiningCrypto.Round
import DiningCrypto.Collate
import DiningCrypto.WordChar
import DiningCrypto.Anonymity
import DiningCrypto.Fifo
import DiningCrypto.Buffer
import DiningCrypto.Session
import DiningCrypto.Delivery
import DiningCrypto.Transcript
import DiningCrypto.Segments
import DiningCrypto.Lines
import DiningCrypto.Transition
import DiningCrypto.Rendezvous
import DiningCrypto.ServerThread
import DiningCrypto.Barriers
import DiningCrypto.KeyRounds
import DiningCrypto.KeyLedger
import DiningCrypto.ClientLoop
import DiningCrypto.Dialogue
import DiningCrypto.Connection
import DiningCrypto.Shutdown
import DiningCrypto.Disconnect
import DiningCrypto.Network
import DiningCrypto.Agreement
import DiningCrypto.Synchrony
import DiningCrypto.Broadcast
import DiningCrypto.Progress
import DiningCrypto.Arrival
import DiningCrypto.Chat
import DiningCrypto.KeyNames
import DiningCrypto.Twins
import DiningCrypto.Exit
import DiningCrypto.Secrecy
